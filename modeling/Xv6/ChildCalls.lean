import Mathlib.Logic.Function.Basic
import Xv6.Lib.EventRuns

/-!
# Parents and children

`fork`, `exit`, `wait` and `kill` by any number of processes, whose steps interleave. A
step is what a process does while it takes one lock: `wait_lock`, which `exit` and `wait`
keep over many steps, or the lock of one slot of the process table, which only `fork`
keeps, for the slot that it fills. Whether memory is left for a child and whether
`copyout` succeeds is part of the event.
-/

namespace ChildCalls

open EventRuns Function

inductive ProcState
  | unused | used | sleeping | runnable | running | zombie
  deriving DecidableEq

inductive Chan (n : Nat)
  | none
  | proc (p : Fin n)
  /-- Of any call but `wait`. -/
  | other
  deriving DecidableEq

structure Proc (n : Nat) where
  state : ProcState
  pid : Nat
  parent : Option (Fin n)
  xstate : Int
  killed : Bool
  chan : Chan n
  /-- Ghost: the pid of the process that called `fork`. -/
  forker : Nat

/-- Where a process is. -/
inductive Pc (n : Nat)
  /-- No process, or one that has exited. -/
  | gone
  | user
  /-- Asleep in another call. -/
  | blocked
  /-- In `allocproc`, at slot `i`. -/
  | allocating (i : Nat)
  /-- In `fork`: has the lock of the new slot, has released it, has recorded the parent. -/
  | filling (np : Fin n)
  | filled (np : Fin n) (pid : Nat)
  | adopted (np : Fin n) (pid : Nat)
  | exiting (status : Int)
  /-- In `reparent` at slot `i`, or in its call of `wakeup` at slot `j`. -/
  | reparenting (status : Int) (i : Nat)
  | wakingInit (status : Int) (i j : Nat)
  | wakingParent (status : Int) (j : Nat)
  /-- `wait` wants the lock; `addr` says that the status is to be copied. -/
  | waiting (addr : Bool)
  | scanning (addr : Bool) (i : Nat) (havekids : Bool)
  /-- About to look at `killed`, about to sleep. -/
  | deciding (addr : Bool)
  | sleepy (addr : Bool)
  | asleep (addr : Bool)
  | killing (pid i : Nat)
  deriving DecidableEq

/-- The process keeps the lock of a slot. -/
def Pc.fills {n : Nat} : Pc n → Bool
  | filling _ => true
  | _ => false

structure State (n : Nat) where
  proc : Fin n → Proc n
  pc : Fin n → Pc n
  waitLock : Option (Fin n)
  /-- The lock of the slot is kept by `fork`. -/
  locked : Fin n → Bool
  nextpid : Nat
  /-- What the last call returned. -/
  ret : Fin n → Int
  /-- Ghost: pid and status of what has exited, and of what `wait` has returned to the process
  with the first pid. -/
  exited : List (Nat × Int)
  reaped : List (Nat × Nat × Int)

inductive Event (n : Nat)
  | fork (p : Fin n)
  | exit (p : Fin n) (status : Int)
  | wait (p : Fin n) (addr : Bool)
  | kill (p : Fin n) (pid : Nat)
  /-- The process goes to sleep in another call, and is woken up. -/
  | block (p : Fin n)
  | awake (p : Fin n)
  /-- `scheduler` and `yield`. -/
  | dispatch (p : Fin n)
  | yield (p : Fin n)
  /-- The process goes on in its call; `ok` says that memory is left and that `copyout` succeeds. -/
  | go (p : Fin n) (ok : Bool)

inductive Stop
  | panic
  /-- A lock is taken, or this is not what the process does next. -/
  | disabled
  deriving DecidableEq

variable {n : Nat}

namespace State

def setProc (s : State n) (j : Fin n) (x : Proc n) : State n :=
  { s with proc := update s.proc j x }

def goTo (s : State n) (p : Fin n) (c : Pc n) : State n := { s with pc := update s.pc p c }

def leave (s : State n) (p : Fin n) (r : Int) : State n :=
  { s.goTo p .user with ret := update s.ret p r }

def unlock (s : State n) : State n := { s with waitLock := none }

end State

/-- `freeproc`. -/
def freed (x : Proc n) : Proc n :=
  { x with state := .unused, pid := 0, parent := none, xstate := 0, killed := false, chan := .none }

/-- Slot `j` in `wakeup`. -/
def woken (x : Proc n) (chan : Chan n) : Proc n :=
  if x.state = .sleeping ∧ x.chan = chan then { x with state := .runnable } else x

/-- The slot that `kill` looks for. -/
def hit (x : Proc n) : Proc n :=
  { x with killed := true, state := if x.state = .sleeping then .runnable else x.state }

/-- A step at slot `i` of a loop over the table that takes the locks of the slots. -/
def atSlot (s : State n) (i : Nat) (body : Fin n → State n) (done : State n) :
    Except Stop (State n) :=
  if h : i < n then
    if s.locked ⟨i, h⟩ then .error .disabled else .ok (body ⟨i, h⟩)
  else .ok done

/-- `allocproc` as far as the lock of a free slot. -/
def found (s : State n) (p np : Fin n) : State n :=
  { (s.setProc np { s.proc np with
      state := .used, pid := s.nextpid, forker := (s.proc p).pid }) with
    pc := update (update s.pc np .user) p (.filling np)
    locked := update s.locked np true
    nextpid := s.nextpid + 1 }

def allocate (s : State n) (p : Fin n) (i : Nat) : Except Stop (State n) :=
  atSlot s i (fun np =>
    if (s.proc np).state = .unused then found s p np else s.goTo p (.allocating (i + 1)))
    (s.leave p (-1))

/-- The rest of `allocproc`, and `fork` up to the release of the new slot. -/
def fill (s : State n) (p np : Fin n) (ok : Bool) : State n :=
  if ok then
    { s.goTo p (.filled np (s.proc np).pid) with locked := update s.locked np false }
  else
    { ((s.setProc np (freed (s.proc np))).goTo np .gone).leave p (-1) with
      locked := update s.locked np false }

def adopt (s : State n) (p np : Fin n) (pid : Nat) : State n :=
  (s.setProc np { s.proc np with parent := some p }).goTo p (.adopted np pid)

def start (s : State n) (p np : Fin n) (pid : Nat) : State n :=
  (s.setProc np { s.proc np with state := .runnable }).leave p pid

/-- A round of `reparent`, up to its call of `wakeup`. -/
def reparent (s : State n) (init p : Fin n) (status : Int) (i : Nat) : State n :=
  if h : i < n then
    if (s.proc ⟨i, h⟩).parent = some p then
      (s.setProc ⟨i, h⟩ { s.proc ⟨i, h⟩ with parent := some init }).goTo p (.wakingInit status i 0)
    else s.goTo p (.reparenting status (i + 1))
  else s.goTo p (.wakingParent status 0)

/-- A round of `wakeup` by `p`. -/
def wakeup (s : State n) (p : Fin n) (chan : Chan n) (j : Nat) (next : Pc n) (done : State n) :
    Except Stop (State n) :=
  if h : j < n then
    if ⟨j, h⟩ = p then .ok (s.goTo p next)
    else if s.locked ⟨j, h⟩ then .error .disabled
    else .ok ((s.setProc ⟨j, h⟩ (woken (s.proc ⟨j, h⟩) chan)).goTo p next)
  else .ok done

def parentChan (x : Proc n) : Chan n :=
  match x.parent with
  | none => .none
  | some q => .proc q

/-- The end of `exit`. -/
def die (s : State n) (p : Fin n) (status : Int) : State n :=
  { (s.setProc p { s.proc p with xstate := status, state := .zombie }).goTo p .gone with
    waitLock := none
    exited := ((s.proc p).pid, status) :: s.exited }

/-- What `wait` does with a zombie child. -/
def reap (s : State n) (p pp : Fin n) : State n :=
  { ((s.setProc pp (freed (s.proc pp))).leave p (s.proc pp).pid).unlock with
    reaped := ((s.proc p).pid, (s.proc pp).pid, (s.proc pp).xstate) :: s.reaped }

/-- A round of the loop of `wait`. -/
def scan (s : State n) (p : Fin n) (addr : Bool) (i : Nat) (havekids ok : Bool) :
    Except Stop (State n) :=
  if h : i < n then
    if (s.proc ⟨i, h⟩).parent = some p then
      if s.locked ⟨i, h⟩ then .error .disabled
      else if (s.proc ⟨i, h⟩).state = .zombie then
        if addr ∧ ok = false then .ok (s.leave p (-1)).unlock else .ok (reap s p ⟨i, h⟩)
      else .ok (s.goTo p (.scanning addr (i + 1) true))
    else .ok (s.goTo p (.scanning addr (i + 1) havekids))
  else if havekids then .ok (s.goTo p (.deciding addr))
  else .ok (s.leave p (-1)).unlock

def fallAsleep (s : State n) (p : Fin n) (addr : Bool) : State n :=
  ((s.setProc p { s.proc p with state := .sleeping, chan := .proc p }).goTo p (.asleep addr)).unlock

/-- The process takes `wait_lock`. -/
def acquire (s : State n) (p : Fin n) (c : Pc n) : Except Stop (State n) :=
  match s.waitLock with
  | some _ => .error .disabled
  | none => .ok { s.goTo p c with waitLock := some p }

def go (init : Fin n) (s : State n) (p : Fin n) (ok : Bool) : Except Stop (State n) :=
  match s.pc p with
  | .gone | .user => .error .disabled
  | .blocked => .ok ((s.setProc p { s.proc p with chan := .none }).goTo p .user)
  | .allocating i => allocate s p i
  | .filling np => .ok (fill s p np ok)
  | .filled np pid => if s.waitLock = none then .ok (adopt s p np pid) else .error .disabled
  | .adopted np pid => if s.locked np then .error .disabled else .ok (start s p np pid)
  | .exiting status => acquire s p (.reparenting status 0)
  | .reparenting status i => .ok (reparent s init p status i)
  | .wakingInit status i j =>
    wakeup s p (.proc init) j (.wakingInit status i (j + 1)) (s.goTo p (.reparenting status (i + 1)))
  | .wakingParent status j =>
    if j < n ∨ s.locked p = false then
      wakeup s p (parentChan (s.proc p)) j (.wakingParent status (j + 1)) (die s p status)
    else .error .disabled
  | .waiting addr => acquire s p (.scanning addr 0 false)
  | .scanning addr i havekids => scan s p addr i havekids ok
  | .deciding addr =>
    if s.locked p then .error .disabled
    else if (s.proc p).killed then .ok (s.leave p (-1)).unlock
    else .ok (s.goTo p (.sleepy addr))
  | .sleepy addr => if s.locked p then .error .disabled else .ok (fallAsleep s p addr)
  | .asleep addr => .ok ((s.setProc p { s.proc p with chan := .none }).goTo p (.waiting addr))
  | .killing pid i => atSlot s i (fun j =>
      if (s.proc j).pid = pid then (s.setProc j (hit (s.proc j))).leave p 0
      else s.goTo p (.killing pid (i + 1))) (s.leave p (-1))

/-- What a process does that is not in one of the calls. -/
def call (init : Fin n) (s : State n) : Event n → Except Stop (State n)
  | .fork p => .ok (s.goTo p (.allocating 0))
  | .exit p status => if p = init then .error .panic else .ok (s.goTo p (.exiting status))
  | .wait p addr => .ok (s.goTo p (.waiting addr))
  | .kill p pid => .ok (s.goTo p (.killing pid 0))
  | .block p =>
    .ok ((s.setProc p { s.proc p with state := .sleeping, chan := .other }).goTo p .blocked)
  | _ => .error .disabled

/-- The process that an event is about. -/
def Event.proc : Event n → Fin n
  | .fork p | .exit p _ | .wait p _ | .kill p _ | .block p | .awake p | .dispatch p | .yield p
  | .go p _ => p

/-- The slot changes its state under its lock. -/
def switch (s : State n) (p : Fin n) (old : ProcState) (new : ProcState) : Except Stop (State n) :=
  if (s.proc p).state = old ∧ s.locked p = false then
    .ok (s.setProc p { s.proc p with state := new })
  else .error .disabled

def step (init : Fin n) (s : State n) : Event n → Except Stop (State n)
  | .awake p => if (s.proc p).chan = .other then switch s p .sleeping .runnable else .error .disabled
  | .dispatch p => switch s p .runnable .running
  -- interrupts are off while the process has a lock
  | .yield p =>
    if s.waitLock = some p ∨ (s.pc p).fills then .error .disabled else switch s p .running .runnable
  | .go p ok => if (s.proc p).state = .running then go init s p ok else .error .disabled
  | e =>
    if (s.proc e.proc).state = .running ∧ s.pc e.proc = .user then call init s e
    else .error .disabled

/-- Only the first process. -/
def boot (init : Fin n) : State n where
  proc := fun p =>
    ⟨if p = init then .runnable else .unused, if p = init then 1 else 0, none, 0, false, .none, 0⟩
  pc := fun p => if p = init then .user else .gone
  waitLock := none
  locked := fun _ => false
  nextpid := 2
  ret := fun _ => 0
  exited := []
  reaped := []

end ChildCalls
