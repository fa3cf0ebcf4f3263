import Mathlib.Data.List.FinRange
import Mathlib.Logic.Function.Basic
import Xv6.Lib.Triples

/-!
# Outlines of the calls on inodes

The calls that deal with inodes, as far as transactions, locks of inodes and references
go. Whatever else a call looks at (an argument, a type, a name, whether there is a free
inode, a block, a page or a descriptor) is the file system's next answer, and every
sequence of answers is possible. An inode is its entry in the table.
-/

namespace CallOutlines

open Function Triples

abbrev NINODE : Nat := 50
abbrev NFILE : Nat := 100

/-- An entry of the inode table. -/
abbrev Ip := Fin NINODE

inductive FileType
  | none | pipe | inode | device
  deriving DecidableEq

structure File where
  type : FileType
  ref : Int
  ip : Ip

/-- The state as one of `n` processes sees it in a call. -/
structure State (n : Nat) where
  ref : Ip → Int
  /-- The process holds the lock. -/
  locked : Ip → Bool
  /-- The process is inside a transaction. -/
  inOp : Bool
  ftable : Fin NFILE → File
  cwd : Fin n → Ip
  answers : List Nat

inductive Stop
  | panic
  /-- The process waits for a lock that it holds itself. -/
  | deadlock
  /-- `begin_op` inside a transaction, `end_op` or `iput` outside of one. -/
  | misuse
  deriving DecidableEq

abbrev Call (n : Nat) := Code Stop (State n)

variable {n : Nat}

/-- What a test gives that does not depend on the modelled state. -/
def ask : Call n Bool := fun s =>
  match s.answers with
  | [] => .ok (false, s)
  | a :: rest => .ok (a ≠ 0, { s with answers := rest })

/-- An entry of the inode table that `iget` finds. -/
def pick : Call n Ip := fun s =>
  match s.answers with
  | [] => .ok (⟨0, by decide⟩, s)
  | a :: rest => .ok (⟨a % NINODE, Nat.mod_lt _ (by decide)⟩, { s with answers := rest })

def State.addRef (s : State n) (ip : Ip) (k : Int) : State n :=
  { s with ref := update s.ref ip (s.ref ip + k) }

def State.setLock (s : State n) (ip : Ip) (b : Bool) : State n :=
  { s with locked := update s.locked ip b }

def begin_op : Call n PUnit := fun s =>
  if s.inOp then .error .misuse else .ok (⟨⟩, { s with inOp := true })

def end_op : Call n PUnit := fun s =>
  if s.inOp then .ok (⟨⟩, { s with inOp := false }) else .error .misuse

/-- An entry of the inode with a reference, or one that is not in use. -/
def iget : Call n Ip := do
  if ← ask then throw .panic
  else
    let ip ← pick
    modify fun s => s.addRef ip 1
    return ip

def idup (ip : Ip) : Call n PUnit := modify fun s => s.addRef ip 1

def ilock (ip : Ip) : Call n PUnit := do
  let s ← get
  if s.ref ip < 1 then throw .panic
  else if s.locked ip then throw .deadlock
  else
    modify fun s => s.setLock ip true
    -- the inode on disk has no type
    if ← ask then throw .panic else pure ⟨⟩

def iunlock (ip : Ip) : Call n PUnit := do
  let s ← get
  if s.locked ip = false ∨ s.ref ip < 1 then throw .panic
  else modify fun s => s.setLock ip false

/-- The answer is whether the inode is valid and has no link; then it is freed, with its lock. -/
def iput (ip : Ip) : Call n PUnit := do
  let s ← get
  if s.inOp = false then throw .misuse
  else
    let unlinked ← ask
    if s.ref ip = 1 ∧ unlinked ∧ s.locked ip then throw .deadlock
    else modify fun s => s.addRef ip (-1)

def iunlockput (ip : Ip) : Call n PUnit := do
  iunlock ip
  iput ip

/-- The answers are whether there is a free inode, and its entry. -/
def ialloc : Call n (Option Ip) := do
  if ← ask then
    let ip ← iget
    return some ip
  else return none

def dirlookup (_dp : Ip) : Call n (Option Ip) := do
  -- not a directory, or a read that fails
  if ← ask then throw .panic
  else if ← ask then
    let ip ← iget
    return some ip
  else return none

def dirlink (dp : Ip) : Call n Int := do
  match ← dirlookup dp with
  | some ip =>
    iput ip
    return -1
  | none => if ← ask then return -1 else return 0

structure Path where
  absolute : Bool
  elements : Nat

def namexLoop (nameiparent : Bool) : Nat → Ip → Call n (Option Ip)
  | 0, ip =>
    if nameiparent then do
      iput ip
      return none
    else return some ip
  | elements + 1, ip => do
    ilock ip
    if ← ask then
      iunlockput ip
      return none
    else if nameiparent ∧ elements = 0 then
      iunlock ip
      return some ip
    else
      match ← dirlookup ip with
      | none =>
        iunlockput ip
        return none
      | some next =>
        iunlockput ip
        namexLoop nameiparent elements next

/-- The root, or the current directory. -/
def namexStart (p : Fin n) (path : Path) : Call n Ip :=
  if path.absolute then iget
  else do
    let s ← get
    idup (s.cwd p)
    return s.cwd p

def namex (p : Fin n) (path : Path) (nameiparent : Bool) : Call n (Option Ip) := do
  let ip ← namexStart p path
  namexLoop nameiparent path.elements ip

def namei (p : Fin n) (path : Path) : Call n (Option Ip) := namex p path false

def nameiparent (p : Fin n) (path : Path) : Call n (Option Ip) := namex p path true

def filealloc : Call n (Option (Fin NFILE)) := fun s =>
  match (List.finRange NFILE).find? fun f => (s.ftable f).ref = 0 with
  | none => .ok (none, s)
  | some f => .ok (some f, { s with ftable := update s.ftable f { s.ftable f with ref := 1 } })

def File.opened (ff : File) : Bool := ff.type = .inode ∨ ff.type = .device

def fileclose (f : Fin NFILE) : Call n PUnit := do
  let s ← get
  let ff := s.ftable f
  if ff.ref < 1 then throw .panic
  else if ff.ref - 1 > 0 then
    modify fun s => { s with ftable := update s.ftable f { ff with ref := ff.ref - 1 } }
  else
    modify fun s => { s with ftable := update s.ftable f { ff with ref := 0, type := .none } }
    if ff.opened then
      begin_op
      iput ff.ip
      end_op
    else pure ⟨⟩

def linkBad (ip : Ip) : Call n Int := do
  ilock ip
  iunlockput ip
  end_op
  return -1

def sys_link (p : Fin n) (old new : Path) : Call n Int := do
  if ← ask then return -1
  else
    begin_op
    match ← namei p old with
    | none =>
      end_op
      return -1
    | some ip =>
      ilock ip
      if ← ask then
        iunlockput ip
        end_op
        return -1
      else
        iunlock ip
        match ← nameiparent p new with
        | none => linkBad ip
        | some dp =>
          ilock dp
          -- another device, or `dirlink` fails
          let r ← (do if ← ask then pure (-1) else dirlink dp : Call n Int)
          if r < 0 then
            iunlockput dp
            linkBad ip
          else
            iunlockput dp
            iput ip
            end_op
            return 0

def unlinkBad (dp : Ip) : Call n Int := do
  iunlockput dp
  end_op
  return -1

def sys_unlink (p : Fin n) (path : Path) : Call n Int := do
  if ← ask then return -1
  else
    begin_op
    match ← nameiparent p path with
    | none =>
      end_op
      return -1
    | some dp =>
      ilock dp
      if ← ask then unlinkBad dp
      else
        match ← dirlookup dp with
        | none => unlinkBad dp
        | some ip =>
          ilock ip
          -- "unlink: nlink < 1"
          if ← ask then throw .panic
          -- a directory that is not empty
          else if ← ask then
            iunlockput ip
            unlinkBad dp
          -- "unlink: writei"
          else if ← ask then throw .panic
          else
            iunlockput dp
            iunlockput ip
            end_op
            return 0

def createFail (ip dp : Ip) : Call n (Option Ip) := do
  iunlockput ip
  iunlockput dp
  return none

/-- The entries "." and "..". -/
def createDots (ip : Ip) : Call n Int := do
  let r ← dirlink ip
  if r < 0 then return r else dirlink ip

def create (p : Fin n) (path : Path) (dir file : Bool) : Call n (Option Ip) := do
  match ← nameiparent p path with
  | none => return none
  | some dp =>
    ilock dp
    match ← dirlookup dp with
    | some ip =>
      iunlockput dp
      ilock ip
      let fits ← ask
      if file ∧ fits then return some ip
      else
        iunlockput ip
        return none
    | none =>
      match ← ialloc with
      | none =>
        iunlockput dp
        return none
      | some ip =>
        ilock ip
        let r ← (if dir then createDots ip else pure 0 : Call n Int)
        if r < 0 then createFail ip dp
        else
          let r ← dirlink dp
          if r < 0 then createFail ip dp
          else
            iunlockput dp
            return some ip

/-- The rest of `sys_open` once the inode is locked. -/
def openFile (ip : Ip) : Call n Int := do
  let device ← ask
  -- a device without a driver
  if ← ask then
    iunlockput ip
    end_op
    return -1
  else
    match ← filealloc with
    | none =>
      iunlockput ip
      end_op
      return -1
    | some f =>
      -- `fdalloc` fails
      if ← ask then
        fileclose f
        iunlockput ip
        end_op
        return -1
      else
        modify fun s => { s with ftable := update s.ftable f { s.ftable f with
          type := if device then .device else .inode, ip := ip } }
        iunlock ip
        end_op
        return 0

def sys_open (p : Fin n) (path : Path) (creates : Bool) : Call n Int := do
  if ← ask then return -1
  else
    begin_op
    if creates then
      match ← create p path false true with
      | none =>
        end_op
        return -1
      | some ip => openFile ip
    else
      match ← namei p path with
      | none =>
        end_op
        return -1
      | some ip =>
        ilock ip
        -- a directory that is not opened for reading only
        if ← ask then
          iunlockput ip
          end_op
          return -1
        else openFile ip

/-- `sys_mkdir` and `sys_mknod`. -/
def makeInode (p : Fin n) (path : Path) (dir : Bool) : Call n Int := do
  begin_op
  let r ← (do if ← ask then pure none else create p path dir false : Call n (Option Ip))
  match r with
  | none =>
    end_op
    return -1
  | some ip =>
    iunlockput ip
    end_op
    return 0

def sys_mkdir (p : Fin n) (path : Path) : Call n Int := makeInode p path true

def sys_mknod (p : Fin n) (path : Path) : Call n Int := makeInode p path false

def sys_chdir (p : Fin n) (path : Path) : Call n Int := do
  begin_op
  let r ← (do if ← ask then pure none else namei p path : Call n (Option Ip))
  match r with
  | none =>
    end_op
    return -1
  | some ip =>
    ilock ip
    if ← ask then
      iunlockput ip
      end_op
      return -1
    else
      iunlock ip
      let s ← get
      iput (s.cwd p)
      end_op
      modify fun s => { s with cwd := update s.cwd p ip }
      return 0

/-- The loop of `exec` over the program headers; does it come to its end? -/
def loadSegments : Nat → Call n Bool
  | 0 => return true
  | headers + 1 => do
    -- `readi` of the header fails
    if ← ask then return false
    -- not `ELF_PROG_LOAD`
    else if ← ask then loadSegments headers
    -- the sizes or the address are wrong
    else if ← ask then return false
    -- `uvmalloc` or `loadseg` fails
    else if ← ask then return false
    else loadSegments headers

/-- The loop of `exec` over the arguments; does it come to its end? -/
def pushArguments : Nat → Call n Bool
  | 0 => return true
  | argc + 1 => do
    -- too many, no room on the stack, or `copyout` fails
    if ← ask then return false else pushArguments argc

/-- Label `bad` of `exec`. -/
def execBad : Option Ip → Call n Int
  | some ip => do
    iunlockput ip
    end_op
    return -1
  | none => return -1

def exec (p : Fin n) (path : Path) (headers argc : Nat) : Call n Int := do
  begin_op
  match ← namei p path with
  | none =>
    end_op
    return -1
  | some ip =>
    ilock ip
    -- `readi` of the ELF header fails, it has another magic, or `proc_pagetable` fails
    if ← ask then execBad (some ip)
    else if ← loadSegments headers then
      iunlockput ip
      end_op
      -- `uvmalloc` of the stack fails
      if ← ask then execBad none
      else if ← pushArguments argc then
        -- no room for the array of pointers, or `copyout` fails
        if ← ask then execBad none else return argc
      else execBad none
    else execBad (some ip)

/-- The calls of process `p`. -/
inductive Sys (n : Nat)
  | link (p : Fin n) (old new : Path)
  | unlink (p : Fin n) (path : Path)
  | open (p : Fin n) (path : Path) (creates : Bool)
  | mkdir (p : Fin n) (path : Path)
  | mknod (p : Fin n) (path : Path)
  | chdir (p : Fin n) (path : Path)
  | exec (p : Fin n) (path : Path) (headers argc : Nat)
  | fileclose (f : Fin NFILE)

def perform : Sys n → Call n Int
  | .link p old new => sys_link p old new
  | .unlink p path => sys_unlink p path
  | .open p path creates => sys_open p path creates
  | .mkdir p path => sys_mkdir p path
  | .mknod p path => sys_mknod p path
  | .chdir p path => sys_chdir p path
  | .exec p path headers argc => exec p path headers argc
  | .fileclose f => do
    fileclose f
    return 0

end CallOutlines
