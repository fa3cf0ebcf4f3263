import Xv6.FileBlocks
import Xv6.Lib.EventRuns
import Xv6.Lib.Tallies

/-!
# The inode table under several processes

Calls on inodes interleave. A step is one critical section: of `itable.lock`, of the
buffer that holds an inode, or of the lock of an inode where the process that has it
touches nothing else. The disk is what the buffer cache shows. File contents are left
out.
-/

namespace InodeTable

open EventRuns FileBlocks Function

abbrev NINODE : Nat := 50

abbrev Ip := Fin NINODE

/-- `copy` is the part of `struct inode` that is read from disk, `lock` who has the lock. -/
structure Inode (n : Nat) where
  dev : Nat
  inum : Nat
  ref : Nat
  lock : Option (Fin n)
  valid : Bool
  copy : Dinode

/-- Where the inode is on disk. -/
def Inode.key {n : Nat} (x : Inode n) : Nat × Nat := (x.dev, x.inum)

/-- Where a process is. -/
inductive Pc
  | idle
  /-- In the loop of `ialloc`. -/
  | scanning (dev inum : Nat) (type : BitVec 16)
  | getting (dev inum : Nat)
  /-- `ilock` wants the lock, has it, has read the inode. -/
  | locking (ip : Ip)
  | loading (ip : Ip)
  | loaded (ip : Ip)
  /-- `iput` frees the inode and then drops its reference. -/
  | truncating (ip : Ip)
  | clearing (ip : Ip)
  | releasing (ip : Ip)
  | dropping (ip : Ip)
  deriving DecidableEq

namespace Pc

/-- The entry that the process puts, after the test in `iput`. -/
def puts : Pc → Option Ip
  | truncating ip | clearing ip | releasing ip | dropping ip => some ip
  | _ => none

/-- The same as long as it has the lock. -/
def frees : Pc → Option Ip
  | truncating ip | clearing ip | releasing ip => some ip
  | _ => none

end Pc

structure State (n : Nat) where
  itable : Ip → Inode n
  disk : Nat × Nat → Dinode
  pc : Fin n → Pc
  /-- What the last `iget` or `ialloc` returned. -/
  ret : Fin n → Option Ip
  /-- Ghost: changed since the last `iupdate`. -/
  dirty : Ip → Bool
  /-- Ghost: not found by `iget` since the last test in `iput` that went for freeing. -/
  calm : Ip → Bool

inductive Event (n : Nat)
  | ialloc (p : Fin n) (dev : Nat) (type : BitVec 16)
  | iget (p : Fin n) (dev inum : Nat)
  | idup (p : Fin n) (ip : Ip)
  | ilock (p : Fin n) (ip : Ip)
  /-- The process changes fields of an inode that it has locked. -/
  | change (p : Fin n) (ip : Ip) (d : Dinode)
  | iupdate (p : Fin n) (ip : Ip)
  | iunlock (p : Fin n) (ip : Ip)
  | iput (p : Fin n) (ip : Ip)
  /-- The process goes on in its call. -/
  | go (p : Fin n)

inductive Stop
  | panic
  /-- The process waits for a lock, or this is not what it does next. -/
  | disabled
  deriving DecidableEq

variable {n : Nat}

namespace State

def setInode (s : State n) (ip : Ip) (x : Inode n) : State n :=
  { s with itable := update s.itable ip x }

def goTo (s : State n) (p : Fin n) (pc : Pc) : State n := { s with pc := update s.pc p pc }

def leave (s : State n) (p : Fin n) (r : Option Ip) : State n :=
  { s.goTo p .idle with ret := update s.ret p r }

/-- The references to the entry that are being put. -/
def puts (s : State n) (ip : Ip) : Nat := ∑ p, if (s.pc p).puts = some ip then 1 else 0

/-- Some process relies on a reference: it has locked the inode or waits for its lock. -/
def used (s : State n) (ip : Ip) : Prop :=
  ∃ p, s.pc p = .locking ip ∨ (s.itable ip).lock = some p ∧ (s.pc p).frees ≠ some ip

instance decidableUsed (s : State n) (ip : Ip) : Decidable (s.used ip) :=
  inferInstanceAs (Decidable (∃ _, _))

/-- The references that may not be put now. -/
def needed (s : State n) (ip : Ip) : Nat := s.puts ip + if s.used ip then 1 else 0

end State

/-- The fields of the inode go to the disk. -/
def iupdate (s : State n) (ip : Ip) : State n :=
  { s with disk := update s.disk (s.itable ip).key (s.itable ip).copy }

/-- An entry with references to the inode, or else one without references. -/
def iget (s : State n) (dev inum : Nat) : Option (Ip × State n) :=
  match (List.finRange NINODE).find? fun ip =>
    0 < (s.itable ip).ref ∧ (s.itable ip).dev = dev ∧ (s.itable ip).inum = inum with
  | some ip =>
    some (ip, { s.setInode ip { s.itable ip with ref := (s.itable ip).ref + 1 } with
      calm := update s.calm ip false })
  | none =>
    match (List.finRange NINODE).find? fun ip => (s.itable ip).ref = 0 with
    | none => none
    | some ip =>
      some (ip, s.setInode ip { s.itable ip with
        dev := dev, inum := inum, ref := 1, valid := false })

/-- `iget` for a process. -/
def igetFor (s : State n) (p : Fin n) (dev inum : Nat) : Except Stop (State n) :=
  match iget s dev inum with
  | none => .error .panic
  | some (ip, t) => .ok (t.leave p (some ip))

/-- One round of the loop of `ialloc`. -/
def scan (ninodes : Nat) (s : State n) (p : Fin n) (dev inum : Nat) (type : BitVec 16) : State n :=
  if inum < ninodes then
    if (s.disk (dev, inum)).type = 0 then
      { s.goTo p (.getting dev inum) with
        disk := update s.disk (dev, inum) ⟨type, 0, 0, 0, 0, fun _ => 0⟩ }
    else s.goTo p (.scanning dev (inum + 1) type)
  else s.leave p none

def idup (s : State n) (ip : Ip) : State n :=
  s.setInode ip { s.itable ip with ref := (s.itable ip).ref + 1 }

def ilock (s : State n) (p : Fin n) (ip : Ip) : Except Stop (State n) :=
  if (s.itable ip).ref < 1 then .error .panic else .ok (s.goTo p (.locking ip))

/-- The rest of `ilock`. -/
def load (s : State n) (p : Fin n) (ip : Ip) : State n :=
  if (s.itable ip).valid then s.goTo p .idle
  else (s.setInode ip { s.itable ip with copy := s.disk (s.itable ip).key }).goTo p (.loaded ip)

def markValid (s : State n) (p : Fin n) (ip : Ip) : Except Stop (State n) :=
  let t := s.setInode ip { s.itable ip with valid := true }
  if (t.itable ip).copy.type = 0 then .error .panic else .ok (t.goTo p .idle)

def iunlock (s : State n) (p : Fin n) (ip : Ip) : Except Stop (State n) :=
  if (s.itable ip).lock ≠ some p ∨ (s.itable ip).ref < 1 then .error .panic
  else .ok (s.setInode ip { s.itable ip with lock := none })

def iput (s : State n) (p : Fin n) (ip : Ip) : Except Stop (State n) :=
  let x := s.itable ip
  if x.ref = 1 ∧ x.valid ∧ x.copy.nlink = 0 then
    -- a process that has `itable.lock` may not sleep
    if x.lock.isSome then .error .panic
    else .ok { (s.setInode ip { x with lock := some p }).goTo p (.truncating ip) with
      calm := update s.calm ip true }
  else .ok (s.setInode ip { x with ref := x.ref - 1 })

def itrunc (s : State n) (ip : Ip) : State n :=
  let x := s.itable ip
  iupdate (s.setInode ip { x with copy := { x.copy with size := 0, addrs := fun _ => 0 } }) ip

/-- `ip->type = 0` and `iupdate`. -/
def clear (s : State n) (ip : Ip) : State n :=
  let x := s.itable ip
  iupdate (s.setInode ip { x with copy := { x.copy with type := 0 } }) ip

def go (ninodes : Nat) (s : State n) (p : Fin n) : Except Stop (State n) :=
  match s.pc p with
  | .idle => .error .disabled
  | .scanning dev inum type => .ok (scan ninodes s p dev inum type)
  | .getting dev inum => igetFor s p dev inum
  | .locking ip =>
    match (s.itable ip).lock with
    | some _ => .error .disabled
    | none => .ok ((s.setInode ip { s.itable ip with lock := some p }).goTo p (.loading ip))
  | .loading ip => .ok (load s p ip)
  | .loaded ip => markValid s p ip
  | .truncating ip => .ok ((itrunc s ip).goTo p (.clearing ip))
  | .clearing ip => .ok ((clear s ip).goTo p (.releasing ip))
  | .releasing ip =>
    .ok ((s.setInode ip { s.itable ip with valid := false, lock := none }).goTo p (.dropping ip))
  | .dropping ip =>
    .ok ((s.setInode ip { s.itable ip with ref := (s.itable ip).ref - 1 }).goTo p .idle)

/-- What a process does that is not in a call. It uses an entry with a reference that is not being
put, does not put a reference that another process relies on, leaves the type of an inode alone,
and unlocks an inode only after `iupdate`. -/
def call (s : State n) : Event n → Except Stop (State n)
  | .ialloc p dev type => .ok (s.goTo p (.scanning dev 1 type))
  | .iget p dev inum => igetFor s p dev inum
  | .idup _ ip => if s.puts ip < (s.itable ip).ref then .ok (idup s ip) else .error .disabled
  | .ilock p ip => if s.puts ip < (s.itable ip).ref then ilock s p ip else .error .disabled
  | .change p ip d =>
    if (s.itable ip).lock = some p ∧ d.type = (s.itable ip).copy.type then
      .ok { s.setInode ip { s.itable ip with copy := d } with dirty := update s.dirty ip true }
    else .error .disabled
  | .iupdate p ip =>
    if (s.itable ip).lock = some p then .ok { iupdate s ip with dirty := update s.dirty ip false }
    else .error .disabled
  | .iunlock p ip => if s.dirty ip then .error .disabled else iunlock s p ip
  | .iput p ip => if s.needed ip < (s.itable ip).ref then iput s p ip else .error .disabled
  | .go _ => .error .disabled

/-- The process that an event is about. -/
def Event.proc : Event n → Fin n
  | .ialloc p _ _ | .iget p _ _ | .idup p _ | .ilock p _ | .change p _ _ | .iupdate p _
  | .iunlock p _ | .iput p _ | .go p => p

def step (ninodes : Nat) (s : State n) (e : Event n) : Except Stop (State n) :=
  match e with
  | .go p => go ninodes s p
  | e => if s.pc e.proc = .idle then call s e else .error .disabled

/-- An empty table and any disk. -/
def boot (n : Nat) (disk : Nat × Nat → Dinode) : State n where
  itable := fun _ => ⟨0, 0, 0, none, false, ⟨0, 0, 0, 0, 0, fun _ => 0⟩⟩
  disk := disk
  pc := fun _ => .idle
  ret := fun _ => none
  dirty := fun _ => false
  calm := fun _ => false

end InodeTable
