import Mathlib.Data.List.FinRange
import Mathlib.Logic.Function.Basic
import Xv6.Lib.EventRuns
import Xv6.Lib.Outcomes
import Xv6.Lib.Tallies

/-!
# The file table

Processes open files and pipes, duplicate and close descriptors, fork and exit, and
their calls interleave. A step is one critical section of `ftable.lock` with what the
process does to its own descriptors before and after it, which no other process
sees. Whether a path leads to an inode, whether memory is left for a pipe or a child,
and whether `copyout` succeeds is part of the event.
-/

namespace FileTable

open EventRuns Function

abbrev NFILE : Nat := 100
abbrev NOFILE : Nat := 16

inductive FileType
  | none | pipe | inode | device
  deriving DecidableEq

structure File where
  type : FileType
  ref : Nat
  readable : Bool
  writable : Bool
  pipe : Nat
  ip : Nat

def O_WRONLY : BitVec 32 := 0x001
def O_RDWR : BitVec 32 := 0x002

/-- The inode that `sys_open` has found and locked. -/
structure Found where
  ip : Nat
  device : Bool
  deriving DecidableEq

/-- Where a process is. The calls hold the files that their local variables point to. -/
inductive Pc (n : Nat)
  | absent
  /-- Allocated by a `fork` that is not over. -/
  | embryo
  | zombie
  | idle
  | opening (i : Found) (omode : BitVec 32)
  | opened (f : Fin NFILE) (i : Found) (omode : BitVec 32)
  /-- In `pipealloc`, with none, one or both of the files. -/
  | piping
  | piped (f0 : Fin NFILE)
  | pair (f0 f1 : Fin NFILE)
  /-- A failed call that gives its files up. -/
  | closing (fs : List (Fin NFILE))
  | forking (np : Fin n) (i : Nat) (pid : Int)
  | exiting (fd : Nat)
  deriving DecidableEq

structure Proc (n : Nat) where
  pc : Pc n
  ofile : Fin NOFILE → Option (Fin NFILE)

/-- What `fileclose` calls for the last reference. -/
inductive Last
  | pipeclose (pi : Nat) (writable : Bool)
  | iput (ip : Nat)
  deriving DecidableEq

structure State (n : Nat) where
  ftable : Fin NFILE → File
  proc : Fin n → Proc n
  /-- What the last call returned. -/
  ret : Fin n → Int
  /-- Ghost: the calls of `pipeclose` and `iput` for files so far, the latest first. -/
  released : List (Fin NFILE × Last)

inductive Event (n : Nat)
  /-- The path leads nowhere, or to an inode. -/
  | open (p : Fin n) (i : Option Found) (omode : BitVec 32)
  | pipe (p : Fin n)
  | dup (p : Fin n) (fd : Fin NOFILE)
  | close (p : Fin n) (fd : Fin NOFILE)
  | fork (p : Fin n) (memory : Bool) (pid : Int)
  | exit (p : Fin n)
  /-- The process goes on: `page` is what `kalloc` gives, `copied` whether both calls of
  `copyout` succeed. -/
  | go (p : Fin n) (page : Option Nat) (copied : Bool)
  /-- `wait` frees the slot of a zombie. -/
  | freed (p : Fin n)

inductive Stop
  | panic
  /-- Not what the process does next. -/
  | disabled
  deriving DecidableEq

variable {n : Nat}

namespace State

def setFile (s : State n) (f : Fin NFILE) (x : File) : State n :=
  { s with ftable := update s.ftable f x }

def setProc (s : State n) (p : Fin n) (x : Proc n) : State n :=
  { s with proc := update s.proc p x }

def goTo (s : State n) (p : Fin n) (pc : Pc n) : State n := s.setProc p ⟨pc, (s.proc p).ofile⟩

def setOfile (s : State n) (p : Fin n) (fd : Fin NOFILE) (f : Option (Fin NFILE)) : State n :=
  s.setProc p ⟨(s.proc p).pc, update (s.proc p).ofile fd f⟩

def leave (s : State n) (p : Fin n) (r : Int) : State n :=
  { s.goTo p .idle with ret := update s.ret p r }

end State

/-- The entry is taken with `ref = 1`. -/
def filealloc (s : State n) : Option (Fin NFILE) :=
  (List.finRange NFILE).find? fun f => (s.ftable f).ref = 0

def taken (s : State n) (f : Fin NFILE) : State n := s.setFile f { s.ftable f with ref := 1 }

def filedup (s : State n) (f : Fin NFILE) : Except Stop (State n) :=
  if (s.ftable f).ref < 1 then .error .panic
  else .ok (s.setFile f { s.ftable f with ref := (s.ftable f).ref + 1 })

def File.last (ff : File) : Option Last :=
  match ff.type with
  | .none => none
  | .pipe => some (.pipeclose ff.pipe ff.writable)
  | .inode | .device => some (.iput ff.ip)

def fileclose (s : State n) (f : Fin NFILE) : Except Stop (State n) :=
  let ff := s.ftable f
  if ff.ref < 1 then .error .panic
  else if ff.ref - 1 > 0 then .ok (s.setFile f { ff with ref := ff.ref - 1 })
  else .ok { s.setFile f { ff with ref := 0, type := .none } with
    released := (ff.last.map fun l => (f, l)).toList ++ s.released }

def fdalloc (s : State n) (p : Fin n) : Option (Fin NOFILE) :=
  (List.finRange NOFILE).find? fun fd => (s.proc p).ofile fd = none

/-- What `sys_open` stores into a new file. -/
def openFile (x : File) (i : Found) (omode : BitVec 32) : File :=
  { x with
    type := if i.device then .device else .inode
    ip := i.ip
    readable := omode &&& O_WRONLY = 0
    writable := omode &&& O_WRONLY ≠ 0 ∨ omode &&& O_RDWR ≠ 0 }

/-- What `pipealloc` stores into a new file. -/
def pipeFile (x : File) (pi : Nat) (writable : Bool) : File :=
  { x with type := .pipe, readable := !writable, writable := writable, pipe := pi }

/-- `sys_open` with a file. -/
def openFd (s : State n) (p : Fin n) (f : Fin NFILE) (i : Found) (omode : BitVec 32) : State n :=
  match fdalloc s p with
  | none => s.goTo p (.closing [f])
  | some fd =>
    ((s.setOfile p fd (some f)).setFile f (openFile (s.ftable f) i omode)).leave p fd.val

/-- `sys_pipe` after `pipealloc`. -/
def pipeFds (s : State n) (p : Fin n) (rf wf : Fin NFILE) (copied : Bool) : State n :=
  match fdalloc s p with
  | none => s.goTo p (.closing [rf, wf])
  | some fd0 =>
    let t := s.setOfile p fd0 (some rf)
    match fdalloc t p with
    | none => (t.setOfile p fd0 none).goTo p (.closing [rf, wf])
    | some fd1 =>
      let t := t.setOfile p fd1 (some wf)
      if copied then t.leave p 0
      else ((t.setOfile p fd0 none).setOfile p fd1 none).goTo p (.closing [rf, wf])

/-- One round of the loop of `fork` over the descriptors. -/
def forkFile (s : State n) (p np : Fin n) (i : Nat) (pid : Int) : Except Stop (State n) :=
  if h : i < NOFILE then
    match (s.proc p).ofile ⟨i, h⟩ with
    | none => .ok (s.goTo p (.forking np (i + 1) pid))
    | some f => do
      let t ← filedup s f
      return (t.setOfile np ⟨i, h⟩ (some f)).goTo p (.forking np (i + 1) pid)
  else .ok ((s.goTo np .idle).leave p pid)

/-- One round of the loop of `exit` over the descriptors. -/
def exitFile (s : State n) (p : Fin n) (fd : Nat) : Except Stop (State n) :=
  if h : fd < NOFILE then
    match (s.proc p).ofile ⟨fd, h⟩ with
    | none => .ok (s.goTo p (.exiting (fd + 1)))
    | some f => do
      let t ← fileclose s f
      return (t.setOfile p ⟨fd, h⟩ none).goTo p (.exiting (fd + 1))
  else .ok (s.goTo p .zombie)

def go (s : State n) (p : Fin n) (page : Option Nat) (copied : Bool) : Except Stop (State n) :=
  match (s.proc p).pc with
  | .opening i omode =>
    match filealloc s with
    | none => .ok (s.leave p (-1))
    | some f => .ok ((taken s f).goTo p (.opened f i omode))
  | .opened f i omode => .ok (openFd s p f i omode)
  | .piping =>
    match filealloc s with
    | none => .ok (s.leave p (-1))
    | some f0 => .ok ((taken s f0).goTo p (.piped f0))
  | .piped f0 =>
    match filealloc s with
    | none => .ok (s.goTo p (.closing [f0]))
    | some f1 => .ok ((taken s f1).goTo p (.pair f0 f1))
  | .pair f0 f1 =>
    match page with
    | none => .ok (s.goTo p (.closing [f0, f1]))
    | some pi =>
      let t := s.setFile f0 (pipeFile (s.ftable f0) pi false)
      let t := t.setFile f1 (pipeFile (t.ftable f1) pi true)
      .ok (pipeFds t p f0 f1 copied)
  | .closing [] => .ok (s.leave p (-1))
  | .closing (f :: fs) => do
    let t ← fileclose s f
    return t.goTo p (.closing fs)
  | .forking np i pid => forkFile s p np i pid
  | .exiting fd => exitFile s p fd
  | .absent | .embryo | .zombie | .idle => .error .disabled

/-- What a process does that is not in a call. -/
def call (s : State n) : Event n → Except Stop (State n)
  | .open p none _ => .ok (s.leave p (-1))
  | .open p (some i) omode => .ok (s.goTo p (.opening i omode))
  | .pipe p => .ok (s.goTo p .piping)
  | .dup p fd =>
    match (s.proc p).ofile fd with
    | none => .ok (s.leave p (-1))
    | some f =>
      match fdalloc s p with
      | none => .ok (s.leave p (-1))
      | some fd' => do
        let t ← filedup (s.setOfile p fd' (some f)) f
        return t.leave p fd'.val
  | .close p fd =>
    match (s.proc p).ofile fd with
    | none => .ok (s.leave p (-1))
    | some f => do
      let t ← fileclose (s.setOfile p fd none) f
      return t.leave p 0
  | .fork p memory pid =>
    match (List.finRange n).find? fun np => (s.proc np).pc = .absent with
    | none => .ok (s.leave p (-1))
    | some np =>
      if memory then .ok ((s.goTo np .embryo).goTo p (.forking np 0 pid))
      else .ok (s.leave p (-1))
  | .exit p => .ok (s.goTo p (.exiting 0))
  | .go _ _ _ | .freed _ => .error .disabled

/-- The process that an event is about. -/
def Event.proc : Event n → Fin n
  | .open p _ _ | .pipe p | .dup p _ | .close p _ | .fork p _ _ | .exit p | .go p _ _ | .freed p => p

def step (s : State n) (e : Event n) : Except Stop (State n) :=
  match e with
  | .go p page copied => go s p page copied
  | .freed p => if (s.proc p).pc = .zombie then .ok (s.goTo p .absent) else .error .disabled
  | e => if (s.proc e.proc).pc = .idle then call s e else .error .disabled

/-- One process without files. -/
def boot (init : Fin n) : State n where
  ftable := fun _ => ⟨.none, 0, false, false, 0, 0⟩
  proc := fun p => ⟨if p = init then .idle else .absent, fun _ => none⟩
  ret := fun _ => 0
  released := []

end FileTable
