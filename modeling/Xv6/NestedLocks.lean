import Xv6.Lib.EventRuns
import Xv6.Lib.LockLedger
import Xv6.Lib.Outcomes
import Xv6.ProcTable

/-!
# Interrupts and nested locks

`push_off` and `pop_off` on any number of CPUs, under `acquire` and `release` and on
their own, with `sched` and `RR_scheduler` switching between processes. An `acquire`
spins between its `push_off` and the lock, a `release` calls `pop_off` after the
lock is gone, and other CPUs come between. A thread without a `push_off` may turn
interrupts on and off, as traps do.
-/

namespace NestedLocks

open EventRuns Function ProcTable

inductive Lock (n : Nat) (L : Type) where
  | proc (i : Fin n)
  | lk (l : L)
  deriving DecidableEq

/-- What a CPU executes: the loop of `RR_scheduler` with the lock it deals with, or a process. -/
inductive Control (n : Nat) where
  | scan (p : Nat)
  | acquiring (p : Fin n)
  | holding (p : Fin n)
  | running (p : Fin n)
  /-- `swtch` has returned. -/
  | returned (p : Fin n)
  | releasing (p : Fin n)
  deriving DecidableEq

/-- A call of `acquire` or `release` that is not over. -/
inductive Mid (n : Nat) (L : Type) where
  | none
  | spins (l : Lock n L)
  | drops

structure Cpu (n : Nat) (L : Type) where
  noff : Nat
  intena : Bool
  /-- `SSTATUS_SIE`: interrupts are on. -/
  sie : Bool
  control : Control n
  mid : Mid n L
  /-- Ghost: calls of `push_off` that no held lock stands for. -/
  opens : Nat

/-- Where `swtch` resumes a process: in `forkret`, or in `sched` with its variable `intena`. -/
inductive Thread where
  | forkret
  | sched (intena : Bool)

structure State (n : Nat) (L C : Type) where
  cpu : C → Cpu n L
  lock : Lock n L → Option C
  state : Fin n → ProcState
  thread : Fin n → Thread
  /-- Ghost: whether interrupts were on at the outermost `push_off` of a process. -/
  entered : Fin n → Option Bool

inductive Action (n : Nat) (L : Type) where
  | push_off
  | pop_off
  | acquire (l : Lock n L)
  | release (l : Lock n L)
  /-- The rest of `acquire` or `release`. -/
  | go
  /-- A trap comes or returns, or the thread calls `intr_on` or `intr_off`. -/
  | intr (sie : Bool)
  /-- The running process leaves `RUNNING`. -/
  | leave (st : ProcState)
  | sched
  /-- With the lock of another slot. -/
  | wake (p : Fin n)
  | create (p : Fin n)
  | reap (p : Fin n)
  /-- The next step of `RR_scheduler`. -/
  | turn
  deriving DecidableEq

structure Event (n : Nat) (L C : Type) where
  cpu : C
  action : Action n L

inductive Stop where
  | popOffInterruptible | popOff | acquire | release
  | schedLock | schedLocks | schedRunning | schedInterruptible
  /-- Another CPU holds the lock. -/
  | spins
  /-- Not what the CPU does next. -/
  | disabled
  deriving DecidableEq

variable {n : Nat} {L C : Type}

def push_off (u : Cpu n L) : Cpu n L :=
  { u with
    sie := false
    intena := if u.noff = 0 then u.sie else u.intena
    noff := u.noff + 1
    opens := u.opens + 1 }

def pop_off (u : Cpu n L) : Except Stop (Cpu n L) :=
  if u.sie then .error .popOffInterruptible
  else if u.noff < 1 then .error .popOff
  else .ok { u with
    noff := u.noff - 1
    sie := if u.noff - 1 = 0 ∧ u.intena then true else u.sie
    opens := u.opens - 1 }

/-- The thread is free to do something of its own. -/
def Cpu.acts (u : Cpu n L) : Prop :=
  match u.mid, u.control with
  | .none, .scan _ => True
  | .none, .running _ => True
  | _, _ => False

instance (u : Cpu n L) : Decidable u.acts := by
  unfold Cpu.acts
  split <;> infer_instance

variable [DecidableEq C] [DecidableEq L]

namespace State

def setCpu (s : State n L C) (c : C) (u : Cpu n L) : State n L C :=
  { s with cpu := update s.cpu c u }

def setLock (s : State n L C) (l : Lock n L) (holder : Option C) : State n L C :=
  { s with lock := update s.lock l holder }

def setState (s : State n L C) (i : Fin n) (st : ProcState) : State n L C :=
  { s with state := update s.state i st }

/-- What the running process notes at its outermost `push_off`. -/
def enter (s : State n L C) (u : Cpu n L) : State n L C :=
  match u.control with
  | .running i =>
    if u.noff = 0 then { s with entered := update s.entered i (some u.sie) } else s
  | _ => s

/-- It is over with the outermost `pop_off`. -/
def forget (s : State n L C) (u : Cpu n L) : State n L C :=
  match u.control with
  | .running i => if u.noff = 0 then { s with entered := update s.entered i none } else s
  | _ => s

end State

/-- `push_off` of a thread, which then goes on at `mid`. -/
def pushed (s : State n L C) (c : C) (mid : Mid n L) : State n L C :=
  (s.enter (s.cpu c)).setCpu c { push_off (s.cpu c) with mid := mid }

def popped (s : State n L C) (c : C) : Except Stop (State n L C) := do
  let u ← pop_off (s.cpu c)
  .ok ((s.forget u).setCpu c { u with mid := .none })

/-- The lock is taken: its `push_off` stands for it. -/
def take (s : State n L C) (c : C) (l : Lock n L) (u : Cpu n L) : Except Stop (State n L C) :=
  if s.lock l ≠ none then .error .spins
  else .ok ((s.setLock l (some c)).setCpu c { u with opens := u.opens - 1 })

/-- The lock is given up, before `pop_off`. -/
def drop (s : State n L C) (c : C) (l : Lock n L) (u : Cpu n L) : Except Stop (State n L C) :=
  if s.lock l ≠ some c then .error .release
  else .ok ((s.setLock l none).setCpu c { u with opens := u.opens + 1 })

def sched (s : State n L C) (c : C) (i : Fin n) : Except Stop (State n L C) :=
  let u := s.cpu c
  if s.lock (.proc i) ≠ some c then .error .schedLock
  else if u.noff ≠ 1 then .error .schedLocks
  else if s.state i = .running then .error .schedRunning
  else if u.sie then .error .schedInterruptible
  else .ok { s.setCpu c { u with control := .returned i } with
    thread := update s.thread i (.sched u.intena) }

/-- `mycpu()->intena` once `swtch` has resumed a process. -/
def Thread.resumed : Thread → Bool → Bool
  | .forkret, intena => intena
  | .sched intena, _ => intena

/-- The next step of `RR_scheduler`; at the end of its loop `scheduler` starts again. -/
def turn (s : State n L C) (c : C) : Except Stop (State n L C) :=
  let u := s.cpu c
  match u.control with
  | .scan p =>
    if u.noff ≠ 0 ∨ ¬ u.acts then .error .disabled
    else if h : p < n then
      if s.lock (.proc ⟨p, h⟩) = some c then .error .acquire
      else .ok (s.setCpu c { push_off u with control := .acquiring ⟨p, h⟩ })
    else .ok (s.setCpu c { u with control := .scan 0, sie := true })
  | .acquiring p => take s c (.proc p) { u with control := .holding p }
  | .holding p =>
    if s.state p = .runnable then
      .ok ((s.setState p .running).setCpu c
        { u with control := .running p, intena := (s.thread p).resumed u.intena })
    else drop s c (.proc p) { u with control := .releasing p }
  | .running _ => .error .disabled
  | .returned p => drop s c (.proc p) { u with control := .releasing p }
  | .releasing p => do
    let u ← pop_off u
    .ok (s.setCpu c { u with control := .scan (p + 1) })

/-- The slot is another process's, and its lock is held. -/
def Guards (s : State n L C) (c : C) (p : Fin n) : Prop :=
  s.lock (.proc p) = some c ∧ match (s.cpu c).control with
    | .running i => i ≠ p
    | _ => True

instance (s : State n L C) (c : C) (p : Fin n) : Decidable (Guards s c p) := by
  unfold Guards
  split <;> infer_instance

/-- What a thread does of its own. -/
def perform (s : State n L C) (c : C) : Action n L → Except Stop (State n L C)
  | .push_off => .ok (pushed s c .none)
  | .pop_off => if (s.cpu c).opens = 0 then .error .disabled else popped s c
  | .acquire l =>
    if s.lock l = some c then .error .acquire else .ok (pushed s c (.spins l))
  | .release l =>
    -- a process that has left `RUNNING` keeps its lock until it is switched away from
    match l, (s.cpu c).control with
    | .proc p, .running i =>
      if p = i ∧ s.state i ≠ .running then .error .disabled
      else drop s c l { s.cpu c with mid := .drops }
    | _, _ => drop s c l { s.cpu c with mid := .drops }
  | .intr sie =>
    if (s.cpu c).noff ≠ 0 then .error .disabled else .ok (s.setCpu c { s.cpu c with sie := sie })
  | .leave st =>
    match (s.cpu c).control with
    | .running i =>
      if s.lock (.proc i) = some c ∧ st ≠ .running then .ok (s.setState i st)
      else .error .disabled
    | _ => .error .disabled
  | .sched =>
    match (s.cpu c).control with
    | .running i => sched s c i
    | _ => .error .disabled
  | .wake p =>
    if Guards s c p ∧ s.state p = .sleeping then .ok (s.setState p .runnable)
    else .error .disabled
  | .create p =>
    if Guards s c p ∧ s.state p = .unused then
      .ok { s.setState p .runnable with
        thread := update s.thread p .forkret, entered := update s.entered p none }
    else .error .disabled
  | .reap p =>
    if Guards s c p ∧ s.state p = .zombie then .ok (s.setState p .unused) else .error .disabled
  | .go | .turn => .error .disabled

def step (s : State n L C) (e : Event n L C) : Except Stop (State n L C) :=
  match e.action with
  | .turn => turn s e.cpu
  | .go =>
    match (s.cpu e.cpu).mid with
    | .none => .error .disabled
    | .spins l => take s e.cpu l { s.cpu e.cpu with mid := .none }
    | .drops => popped s e.cpu
  | action => if (s.cpu e.cpu).acts then perform s e.cpu action else .error .disabled

/-- At the start all CPUs enter `scheduler`, and some slots have processes that never ran. -/
def boot (up : Fin n → Bool) : State n L C where
  cpu := fun _ => ⟨0, false, false, .scan n, .none, 0⟩
  lock := fun _ => none
  state := fun i => if up i then .runnable else .unused
  thread := fun _ => .forkret
  entered := fun _ => none

end NestedLocks
