import Mathlib.Data.Fintype.Basic
import Mathlib.Data.List.FinRange
import Mathlib.Logic.Function.Basic
import Xv6.Lib.ByteMemory
import Xv6.Lib.SlotTables

/-!
# Calls on directories and inodes

The system calls of `sysfile.c` that make inodes, name them and give them up,
one call after the other, over the functions of `fs.c` and `file.c` that they
use. A directory is the list of its entries. The content of a file plays no
part and is left out, as are the blocks an inode owns; whether `balloc` finds a
block for a directory that grows is part of the call.
-/

namespace DirectoryCalls
open ByteMemory Function SlotTables

def NINODE : Nat := 50
def NFILE : Nat := 100
def NOFILE : Nat := 16
def NDEV : Nat := 10
def DIRSIZ : Nat := 14
/-- Entries per block: `BSIZE / sizeof(struct dirent)`. -/
def DPB : Nat := 64
/-- Entries per directory: `MAXFILE * DPB`. -/
def MAXDIRENTS : Nat := 17152

def O_RDONLY : BitVec 32 := 0x000
def O_WRONLY : BitVec 32 := 0x001
def O_RDWR : BitVec 32 := 0x002
def O_CREATE : BitVec 32 := 0x200

/-- An inode number, of a file system with `n + 2` inodes; number 0 is not used. An
image of `FSSIZE` blocks has fewer than `2 ^ 16`, the range of `de.inum`. -/
abbrev Inum (n : Nat) := Fin (n + 2)

def ROOTINO {n : Nat} : Inum n := 1

/-- The number in an entry that is not in use. -/
abbrev noInum {n : Nat} : Inum n := 0

/-- A name of at most `DIRSIZ` bytes, without the zero after a shorter one. Two
names are equal exactly when `namecmp` gives 0. -/
abbrev Name := List Byte

/-- A path, without the zero after it. -/
abbrev Path := List Byte

def slash : Byte := 47
def dot : Name := [46]
def dotdot : Name := [46, 46]

/-- The types of `stat.h`, with 0 for a free inode. -/
inductive InodeType
  | free | dir | file | device
  deriving DecidableEq

/-- An entry of a directory, free when its number is 0. -/
structure Dirent (n : Nat) where
  inum : Inum n
  name : Name
  deriving DecidableEq

/-- An inode on disk. A call changes it through the in-memory copy and `iupdate`
with the inode locked, so a valid copy has the same fields. -/
structure Dinode (n : Nat) where
  type : InodeType
  major : BitVec 16
  minor : BitVec 16
  nlink : BitVec 16
  dirents : List (Dirent n)
  deriving DecidableEq

/-- The entry of an inode in the table; one with `ref = 0` may be used for another inode. -/
structure Entry where
  ref : Nat
  valid : Bool
  locked : Bool
  deriving DecidableEq

inductive FileType
  | none | inode | device
  deriving DecidableEq

structure File (n : Nat) where
  type : FileType
  ref : Nat
  readable : Bool
  writable : Bool
  ip : Inum n
  off : Nat
  major : BitVec 16

/-- The files of a process; a process that does not exist has no directory. -/
structure Proc (n : Nat) where
  cwd : Option (Inum n)
  ofile : Fin NOFILE → Option (Fin NFILE)

inductive Panic
  | noInodes    -- "iget: no inodes"
  | noType      -- "ilock: no type"
  | ilock       -- "ilock"
  | iunlock     -- "iunlock"
  | notDir      -- "dirlookup not DIR"
  | lowLink     -- "unlink: nlink < 1"
  | filedup     -- "filedup"
  | fileclose   -- "fileclose"
  | initExiting -- "init exiting"
  | deadlock    -- waits for a lock that it holds itself
  | noProcess   -- not a call of a process that exists
  | endless     -- more rounds than the path has bytes
  deriving DecidableEq

structure State (n m : Nat) where
  dinode : Inum n → Dinode n
  itable : Inum n → Entry
  ftable : Fin NFILE → File n
  proc : Fin (m + 1) → Proc n
  /-- System calls inside a transaction. -/
  outstanding : Nat

section Updates
variable {n m : Nat} (s : State n m)

def State.setInode (i : Inum n) (d : Dinode n) : State n m :=
  { s with dinode := update s.dinode i d }

def State.setEntry (i : Inum n) (e : Entry) : State n m :=
  { s with itable := update s.itable i e }

def State.setFile (f : Fin NFILE) (x : File n) : State n m :=
  { s with ftable := update s.ftable f x }

def State.setProc (p : Fin (m + 1)) (x : Proc n) : State n m :=
  { s with proc := update s.proc p x }

/-- `p->ofile[fd] = f`. -/
def State.setOfile (p : Fin (m + 1)) (fd : Fin NOFILE) (f : Option (Fin NFILE)) : State n m :=
  s.setProc p { s.proc p with ofile := update (s.proc p).ofile fd f }

/-- `ip->nlink = k; iupdate(ip)`. -/
def State.setLinks (i : Inum n) (k : BitVec 16) : State n m :=
  s.setInode i { s.dinode i with nlink := k }

def begin_op : State n m := { s with outstanding := s.outstanding + 1 }
def end_op : State n m := { s with outstanding := s.outstanding - 1 }

/-- The table entries in use. -/
def State.inUse : Nat := (List.finRange (n + 2)).countP fun i => 0 < (s.itable i).ref

end Updates

section Inodes
variable {n m : Nat}

def iget (inum : Inum n) (s : State n m) : Except Panic (State n m) :=
  let e := s.itable inum
  if 0 < e.ref then .ok (s.setEntry inum { e with ref := e.ref + 1 })
  else if s.inUse < NINODE then .ok (s.setEntry inum { e with ref := 1, valid := false })
  else .error .noInodes

def idup (ip : Inum n) (s : State n m) : State n m :=
  s.setEntry ip { s.itable ip with ref := (s.itable ip).ref + 1 }

def ilock (ip : Inum n) (s : State n m) : Except Panic (State n m) :=
  let e := s.itable ip
  if e.ref < 1 then .error .ilock
  else if e.locked then .error .deadlock
  else if e.valid = false ∧ (s.dinode ip).type = .free then .error .noType
  else .ok (s.setEntry ip { e with valid := true, locked := true })

def iunlock (ip : Inum n) (s : State n m) : Except Panic (State n m) :=
  let e := s.itable ip
  if e.locked = false ∨ e.ref < 1 then .error .iunlock
  else .ok (s.setEntry ip { e with locked := false })

/-- `itrunc` gives up the entries. -/
def iput (ip : Inum n) (s : State n m) : Except Panic (State n m) :=
  let e := s.itable ip
  if e.ref = 1 ∧ e.valid = true ∧ (s.dinode ip).nlink = 0 then
    if e.locked then .error .deadlock
    else
      let s := s.setInode ip { s.dinode ip with type := .free, dirents := [] }
      .ok (s.setEntry ip { e with ref := e.ref - 1, valid := false })
  else .ok (s.setEntry ip { e with ref := e.ref - 1 })

def iunlockput (ip : Inum n) (s : State n m) : Except Panic (State n m) := do
  let s ← iunlock ip s
  iput ip s

/-- The first free inode, from number 1 on, with a new type and a reference. -/
def ialloc (type : InodeType) (s : State n m) : Except Panic (Option (Inum n) × State n m) :=
  match (List.finRange (n + 2)).find? fun i => i ≠ 0 ∧ (s.dinode i).type = .free with
  | none => .ok (none, s)
  | some inum => do
    let s ← iget inum (s.setInode inum ⟨type, 0, 0, 0, []⟩)
    pure (some inum, s)

/-- The number that `ialloc` takes. -/
def nextInum (disk : Inum n → Dinode n) : Option (Inum n) :=
  (List.finRange (n + 2)).find? fun i => i ≠ 0 ∧ (disk i).type = .free

/-- The loop of `dirlookup`: the first entry in use with this name, and its place. -/
def lookup : List (Dirent n) → Name → Option (Nat × Inum n)
  | [], _ => none
  | de :: rest, name =>
    if de.inum ≠ 0 ∧ de.name = name then some (0, de.inum)
    else (lookup rest name).map fun x => (x.1 + 1, x.2)

def dirlookup (dp : Inum n) (name : Name) (s : State n m) :
    Except Panic (Option (Nat × Inum n) × State n m) :=
  if (s.dinode dp).type ≠ .dir then .error .notDir
  else match lookup (s.dinode dp).dirents name with
    | none => .ok (none, s)
    | some (k, inum) => do
      let s ← iget inum s
      pure (some (k, inum), s)

/-- `writei` of one entry at place `k`. A directory has no holes, so only the first
entry of a block needs a new one; `room` says whether `balloc` finds it. -/
def writeDirent (room : Bool) (k : Nat) (de : Dirent n) (l : List (Dirent n)) :
    Option (List (Dirent n)) :=
  if k < l.length then some (put k de l)
  else if MAXDIRENTS ≤ k then none
  else if k % DPB = 0 ∧ room = false then none
  else some (put k de l)

def dirlink (room : Bool) (dp : Inum n) (name : Name) (inum : Inum n) (s : State n m) :
    Except Panic (Int × State n m) := do
  match ← dirlookup dp name s with
  | (some (_, ip), s) => do
    let s ← iput ip s
    pure (-1, s)
  | (none, s) =>
    let d := s.dinode dp
    match writeDirent room (d.dirents.findIdx fun de => de.inum = 0) ⟨inum, name⟩ d.dirents with
    | none => pure (-1, s)
    | some dirents => pure (0, s.setInode dp { d with dirents := dirents })

/-- Is the directory empty except for its first two entries? -/
def isdirempty (d : Dinode n) : Bool := (d.dirents.drop 2).all fun de => de.inum = 0

/-- The next element of the path, cut to `DIRSIZ` bytes, and the path after it. -/
def skipelem (path : Path) : Option (Name × Path) :=
  let path := path.dropWhile (· = slash)
  if path = [] then none
  else some ((path.takeWhile (· ≠ slash)).take DIRSIZ,
    (path.dropWhile (· ≠ slash)).dropWhile (· = slash))

/-- The loop of `namex`. An element takes a byte of the path at least, so one round
more than it has bytes is enough. -/
def namexLoop (parent : Bool) :
    Nat → Inum n → Path → State n m → Except Panic (Option (Inum n × Name) × State n m)
  | 0, _, _, _ => .error .endless
  | rounds + 1, ip, path, s =>
    match skipelem path with
    | none =>
      if parent then do
        let s ← iput ip s
        pure (none, s)
      else .ok (some (ip, []), s)
    | some (name, path) => do
      let s ← ilock ip s
      if (s.dinode ip).type ≠ .dir then do
        let s ← iunlockput ip s
        pure (none, s)
      else if parent ∧ path = [] then do
        let s ← iunlock ip s
        pure (some (ip, name), s)
      else match ← dirlookup ip name s with
        | (none, s) => do
          let s ← iunlockput ip s
          pure (none, s)
        | (some (_, next), s) => do
          let s ← iunlockput ip s
          namexLoop parent rounds next path s

/-- Where `namex` starts, with a reference. -/
def namexStart (p : Fin (m + 1)) (path : Path) (s : State n m) :
    Except Panic (Inum n × State n m) :=
  if path.head? = some slash then do
    let s ← iget ROOTINO s
    pure (ROOTINO, s)
  else match (s.proc p).cwd with
    | none => .error .noProcess
    | some cwd => .ok (cwd, idup cwd s)

def namex (p : Fin (m + 1)) (path : Path) (parent : Bool) (s : State n m) :
    Except Panic (Option (Inum n × Name) × State n m) := do
  let (ip, s) ← namexStart p path s
  namexLoop parent (path.length + 1) ip path s

def namei (p : Fin (m + 1)) (path : Path) (s : State n m) :
    Except Panic (Option (Inum n) × State n m) := do
  let (r, s) ← namex p path false s
  pure (r.map Prod.fst, s)

def nameiparent (p : Fin (m + 1)) (path : Path) (s : State n m) :
    Except Panic (Option (Inum n × Name) × State n m) :=
  namex p path true s

end Inodes

section Creation
variable {n m : Nat}

/-- Label `fail` of `create`. -/
def createFail (ip dp : Inum n) (s : State n m) : Except Panic (Option (Inum n) × State n m) := do
  let s := s.setLinks ip 0
  let s ← iunlockput ip s
  let s ← iunlockput dp s
  pure (none, s)

/-- The entries that `create` gives a new inode: "." and ".." to a directory. -/
def createDots (type : InodeType) (room : Bool) (ip dp : Inum n) (s : State n m) :
    Except Panic (Int × State n m) :=
  if type = .dir then do
    let (r, s) ← dirlink room ip dot ip s
    if r < 0 then pure (r, s)
    else dirlink room ip dotdot dp s
  else .ok (0, s)

/-- The rest of `create` once the new inode is locked. -/
def createLinks (type : InodeType) (major minor : BitVec 16) (roomIp roomDp : Bool)
    (ip dp : Inum n) (name : Name) (s : State n m) :
    Except Panic (Option (Inum n) × State n m) := do
  let s := s.setInode ip { s.dinode ip with major := major, minor := minor, nlink := 1 }
  let (r, s) ← createDots type roomIp ip dp s
  if r < 0 then createFail ip dp s
  else
    let (r, s) ← dirlink roomDp dp name ip s
    if r < 0 then createFail ip dp s
    else
      let s := if type = .dir then s.setLinks dp ((s.dinode dp).nlink + 1) else s
      let s ← iunlockput dp s
      pure (some ip, s)

/-- `roomIp` and `roomDp` say whether `balloc` finds a block for the new
directory and for the one that gets the new name. -/
def create (p : Fin (m + 1)) (path : Path) (type : InodeType) (major minor : BitVec 16)
    (roomIp roomDp : Bool) (s : State n m) : Except Panic (Option (Inum n) × State n m) := do
  match ← nameiparent p path s with
  | (none, s) => pure (none, s)
  | (some (dp, name), s) => do
    let s ← ilock dp s
    match ← dirlookup dp name s with
    | (some (_, ip), s) => do
      let s ← iunlockput dp s
      let s ← ilock ip s
      if type = .file ∧ ((s.dinode ip).type = .file ∨ (s.dinode ip).type = .device) then
        pure (some ip, s)
      else do
        let s ← iunlockput ip s
        pure (none, s)
    | (none, s) =>
      match ← ialloc type s with
      | (none, s) => do
        let s ← iunlockput dp s
        pure (none, s)
      | (some ip, s) => do
        let s ← ilock ip s
        createLinks type major minor roomIp roomDp ip dp name s

end Creation

section Files
variable {n m : Nat}

def filealloc (s : State n m) : Option (Fin NFILE × State n m) :=
  ((List.finRange NFILE).find? fun f => (s.ftable f).ref = 0).map fun f =>
    (f, s.setFile f { s.ftable f with ref := 1 })

def fdalloc (p : Fin (m + 1)) (f : Fin NFILE) (s : State n m) : Option (Fin NOFILE × State n m) :=
  ((List.finRange NOFILE).find? fun fd => (s.proc p).ofile fd = none).map fun fd =>
    (fd, s.setOfile p fd (some f))

def filedup (f : Fin NFILE) (s : State n m) : Except Panic (State n m) :=
  let x := s.ftable f
  if x.ref < 1 then .error .filedup else .ok (s.setFile f { x with ref := x.ref + 1 })

def fileclose (f : Fin NFILE) (s : State n m) : Except Panic (State n m) :=
  let x := s.ftable f
  if x.ref < 1 then .error .fileclose
  else if 0 < x.ref - 1 then .ok (s.setFile f { x with ref := x.ref - 1 })
  else
    let s := s.setFile f { x with ref := 0, type := .none }
    if x.type = .none then .ok s
    else do
      let s ← iput x.ip (begin_op s)
      pure (end_op s)

/-- The file that the descriptor names. -/
def argfd (p : Fin (m + 1)) (fd : Int) (s : State n m) : Option (Fin NOFILE × Fin NFILE) :=
  if fd < 0 then none
  else if h : fd.toNat < NOFILE then
    ((s.proc p).ofile ⟨fd.toNat, h⟩).map fun f => (⟨fd.toNat, h⟩, f)
  else none

end Files

section Calls
variable {n m : Nat}

/-- The inode that `sys_open` opens, locked. -/
def openInode (p : Fin (m + 1)) (path : Path) (omode : BitVec 32) (room : Bool) (s : State n m) :
    Except Panic (Option (Inum n) × State n m) :=
  if omode &&& O_CREATE ≠ 0 then create p path .file 0 0 false room s
  else do
    match ← namei p path s with
    | (none, s) => pure (none, s)
    | (some ip, s) => do
      let s ← ilock ip s
      if (s.dinode ip).type = .dir ∧ omode ≠ O_RDONLY then do
        let s ← iunlockput ip s
        pure (none, s)
      else pure (some ip, s)

/-- The fields of the file that `sys_open` returns. A truncated file keeps its inode. -/
def openedFile (omode : BitVec 32) (ip : Inum n) (d : Dinode n) (x : File n) : File n :=
  { x with
    type := if d.type = .device then .device else .inode
    major := if d.type = .device then d.major else x.major
    off := if d.type = .device then x.off else 0
    ip := ip
    readable := omode &&& O_WRONLY = 0
    writable := omode &&& O_WRONLY ≠ 0 ∨ omode &&& O_RDWR ≠ 0 }

/-- The rest of `sys_open` once the inode is locked. -/
def openFile (p : Fin (m + 1)) (ip : Inum n) (omode : BitVec 32) (s : State n m) :
    Except Panic (Int × State n m) :=
  let d := s.dinode ip
  if d.type = .device ∧ (d.major.toInt < 0 ∨ NDEV ≤ d.major.toInt) then do
    let s ← iunlockput ip s
    pure (-1, end_op s)
  else match filealloc s with
    | none => do
      let s ← iunlockput ip s
      pure (-1, end_op s)
    | some (f, s) =>
      match fdalloc p f s with
      | none => do
        let s ← fileclose f s
        let s ← iunlockput ip s
        pure (-1, end_op s)
      | some (fd, s) => do
        let s ← iunlock ip (s.setFile f (openedFile omode ip d (s.ftable f)))
        pure (fd, end_op s)

def sys_open (p : Fin (m + 1)) (path : Option Path) (omode : BitVec 32) (room : Bool)
    (s : State n m) : Except Panic (Int × State n m) :=
  match path with
  | none => .ok (-1, s)
  | some path => do
    match ← openInode p path omode room (begin_op s) with
    | (none, s) => pure (-1, end_op s)
    | (some ip, s) => openFile p ip omode s

/-- `sys_mkdir` and `sys_mknod` after their arguments. -/
def makeInode (p : Fin (m + 1)) (path : Option Path) (type : InodeType) (major minor : BitVec 16)
    (roomIp roomDp : Bool) (s : State n m) : Except Panic (Int × State n m) :=
  match path with
  | none => .ok (-1, end_op (begin_op s))
  | some path => do
    match ← create p path type major minor roomIp roomDp (begin_op s) with
    | (none, s) => pure (-1, end_op s)
    | (some ip, s) => do
      let s ← iunlockput ip s
      pure (0, end_op s)

def sys_mkdir (p : Fin (m + 1)) (path : Option Path) (roomIp roomDp : Bool) (s : State n m) :
    Except Panic (Int × State n m) :=
  makeInode p path .dir 0 0 roomIp roomDp s

/-- The device numbers are of type `int` in the call and `short` in the inode. -/
def sys_mknod (p : Fin (m + 1)) (path : Option Path) (major minor : BitVec 32) (room : Bool)
    (s : State n m) : Except Panic (Int × State n m) :=
  makeInode p path .device (major.setWidth 16) (minor.setWidth 16) false room s

/-- Label `bad` of `sys_link`. -/
def linkBad (ip : Inum n) (s : State n m) : Except Panic (Int × State n m) := do
  let s ← ilock ip s
  let s := s.setLinks ip ((s.dinode ip).nlink - 1)
  let s ← iunlockput ip s
  pure (-1, end_op s)

/-- The rest of `sys_link` once the directory of the new name is found. There is one
device. -/
def linkName (room : Bool) (dp ip : Inum n) (name : Name) (s : State n m) :
    Except Panic (Int × State n m) := do
  let s ← ilock dp s
  let (r, s) ← dirlink room dp name ip s
  let s ← iunlockput dp s
  if r < 0 then linkBad ip s
  else
    let s ← iput ip s
    pure (0, end_op s)

def sys_link (p : Fin (m + 1)) (old new : Option Path) (room : Bool) (s : State n m) :
    Except Panic (Int × State n m) :=
  match old, new with
  | some old, some new => do
    match ← namei p old (begin_op s) with
    | (none, s) => pure (-1, end_op s)
    | (some ip, s) => do
      let s ← ilock ip s
      if (s.dinode ip).type = .dir then do
        let s ← iunlockput ip s
        pure (-1, end_op s)
      else
        let s ← iunlock ip (s.setLinks ip ((s.dinode ip).nlink + 1))
        match ← nameiparent p new s with
        | (none, s) => linkBad ip s
        | (some (dp, name), s) => linkName room dp ip name s
  | _, _ => .ok (-1, s)

/-- Label `bad` of `sys_unlink`. -/
def unlinkBad (dp : Inum n) (s : State n m) : Except Panic (Int × State n m) := do
  let s ← iunlockput dp s
  pure (-1, end_op s)

/-- The rest of `sys_unlink` once the entry is to go. -/
def unlinkEntry (dp ip : Inum n) (k : Nat) (s : State n m) : Except Panic (Int × State n m) := do
  let s := s.setInode dp
    { s.dinode dp with dirents := (s.dinode dp).dirents.set k ⟨0, []⟩ }
  let s := if (s.dinode ip).type = .dir then s.setLinks dp ((s.dinode dp).nlink - 1) else s
  let s ← iunlockput dp s
  let s := s.setLinks ip ((s.dinode ip).nlink - 1)
  let s ← iunlockput ip s
  pure (0, end_op s)

def sys_unlink (p : Fin (m + 1)) (path : Option Path) (s : State n m) :
    Except Panic (Int × State n m) :=
  match path with
  | none => .ok (-1, s)
  | some path => do
    match ← nameiparent p path (begin_op s) with
    | (none, s) => pure (-1, end_op s)
    | (some (dp, name), s) => do
      let s ← ilock dp s
      if name = dot ∨ name = dotdot then unlinkBad dp s
      else match ← dirlookup dp name s with
        | (none, s) => unlinkBad dp s
        | (some (k, ip), s) => do
          let s ← ilock ip s
          if (s.dinode ip).nlink.toInt < 1 then .error .lowLink
          else if (s.dinode ip).type = .dir ∧ isdirempty (s.dinode ip) = false then do
            let s ← iunlockput ip s
            unlinkBad dp s
          else unlinkEntry dp ip k s

def sys_chdir (p : Fin (m + 1)) (path : Option Path) (s : State n m) :
    Except Panic (Int × State n m) :=
  match path with
  | none => .ok (-1, end_op (begin_op s))
  | some path => do
    match ← namei p path (begin_op s) with
    | (none, s) => pure (-1, end_op s)
    | (some ip, s) => do
      let s ← ilock ip s
      if (s.dinode ip).type ≠ .dir then do
        let s ← iunlockput ip s
        pure (-1, end_op s)
      else
        let s ← iunlock ip s
        match (s.proc p).cwd with
        | none => .error .noProcess
        | some cwd => do
          let s ← iput cwd s
          pure (0, (end_op s).setProc p { s.proc p with cwd := some ip })

def sys_close (p : Fin (m + 1)) (fd : Int) (s : State n m) : Except Panic (Int × State n m) :=
  match argfd p fd s with
  | none => .ok (-1, s)
  | some (fd, f) => do
    let s ← fileclose f (s.setOfile p fd none)
    pure (0, s)

/-- One round of the loop of `exit` over the open files. -/
def exitFile (p : Fin (m + 1)) (s : State n m) (fd : Fin NOFILE) : Except Panic (State n m) :=
  match (s.proc p).ofile fd with
  | none => .ok s
  | some f => do
    let s ← fileclose f s
    pure (s.setOfile p fd none)

/-- What `exit` does with files; process 0 is `initproc`. -/
def exit (p : Fin (m + 1)) (s : State n m) : Except Panic (State n m) :=
  if p = 0 then .error .initExiting
  else do
    let s ← (List.finRange NOFILE).foldlM (exitFile p) s
    match (s.proc p).cwd with
    | none => .error .noProcess
    | some cwd => do
      let s ← iput cwd (begin_op s)
      pure ((end_op s).setProc p { s.proc p with cwd := none })

/-- One round of the loop of `fork` over the open files. -/
def forkFile (p np : Fin (m + 1)) (s : State n m) (fd : Fin NOFILE) : Except Panic (State n m) :=
  match (s.proc p).ofile fd with
  | none => .ok s
  | some f => do
    let s ← filedup f s
    pure (s.setOfile np fd (some f))

/-- What `fork` does with files, for a child in the unused slot `np`. -/
def fork (p np : Fin (m + 1)) (s : State n m) : Except Panic (State n m) :=
  if (s.proc np).cwd ≠ none then .error .noProcess
  else do
    let s ← (List.finRange NOFILE).foldlM (forkFile p np) s
    match (s.proc p).cwd with
    | none => .error .noProcess
    | some cwd => pure ((idup cwd s).setProc np { s.proc np with cwd := some cwd })

/-- A call of process `p`. A path is `none` where `argstr` fails. -/
inductive Call (m : Nat)
  | open (p : Fin (m + 1)) (path : Option Path) (omode : BitVec 32) (room : Bool)
  | mkdir (p : Fin (m + 1)) (path : Option Path) (roomIp roomDp : Bool)
  | mknod (p : Fin (m + 1)) (path : Option Path) (major minor : BitVec 32) (room : Bool)
  | link (p : Fin (m + 1)) (old new : Option Path) (room : Bool)
  | unlink (p : Fin (m + 1)) (path : Option Path)
  | chdir (p : Fin (m + 1)) (path : Option Path)
  | close (p : Fin (m + 1)) (fd : Int)
  | exit (p : Fin (m + 1))
  | fork (p np : Fin (m + 1))

def Call.proc : Call m → Fin (m + 1)
  | .open p _ _ _ | .mkdir p _ _ _ | .mknod p _ _ _ _ | .link p _ _ _ | .unlink p _
  | .chdir p _ | .close p _ | .exit p | .fork p _ => p

/-- The state after a call, whatever it returns. -/
def step (s : State n m) (c : Call m) : Except Panic (State n m) :=
  if (s.proc c.proc).cwd = none then .error .noProcess
  else match c with
    | .open p path omode room => (sys_open p path omode room s).map Prod.snd
    | .mkdir p path roomIp roomDp => (sys_mkdir p path roomIp roomDp s).map Prod.snd
    | .mknod p path major minor room => (sys_mknod p path major minor room s).map Prod.snd
    | .link p old new room => (sys_link p old new room s).map Prod.snd
    | .unlink p path => (sys_unlink p path s).map Prod.snd
    | .chdir p path => (sys_chdir p path s).map Prod.snd
    | .close p fd => (sys_close p fd s).map Prod.snd
    | .exit p => exit p s
    | .fork p np => fork p np s

/-- The root directory of an empty file system. -/
def rootDir : Dinode n := ⟨.dir, 0, 0, 1, [⟨ROOTINO, dot⟩, ⟨ROOTINO, dotdot⟩]⟩

/-- After boot: an empty file system, and `initproc` in the root directory. Any tree
of files and directories comes from it by calls of `initproc`. -/
def boot : State n m where
  dinode := fun i => if i = ROOTINO then rootDir else ⟨.free, 0, 0, 0, []⟩
  itable := fun i => if i = ROOTINO then ⟨1, false, false⟩ else ⟨0, false, false⟩
  ftable := fun _ => ⟨.none, 0, false, false, 0, 0, 0⟩
  proc := fun p => ⟨if p = 0 then some ROOTINO else none, fun _ => none⟩
  outstanding := 0

end Calls

end DirectoryCalls
