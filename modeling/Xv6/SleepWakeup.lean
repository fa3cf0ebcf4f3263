import Mathlib.Data.List.Perm.Basic
import Mathlib.Logic.Function.Basic
import Xv6.Lib.EventRuns
import Xv6.ProcTable

/-!
# Sleeping and waking at lock granularity

Any number of processes run under `RR_scheduler` on any number of CPUs. A step of
a CPU is one statement: it acquires or releases a spinlock, or does what it does
between two such operations. A process that holds a lock `lk` may sleep on a channel,
wake a channel up or exit; without a lock it may kill, and a timer interrupt may
make it yield. The history keeps when a sleeper released `lk` and when a wakeup
started and finished.
-/

namespace SleepWakeup

open EventRuns ProcTable

variable {n : Nat} {CPU Lk Chan : Type}

inductive Lock (n : Nat) (Lk : Type) where
  | proc (i : Fin n)
  | lk (l : Lk)
  deriving DecidableEq

/-- The statements of `sleep`, named by what they do next. -/
inductive SleepAt where
  | acquireProc | releaseLk | store | sched
  /-- `swtch` has returned. -/
  | tidy
  | releaseProc | acquireLk

inductive ExitAt where
  | acquireProc | store | releaseLk | sched | gone

inductive YieldAt where
  | acquireProc | store | sched | releaseProc

/-- Where a thread is. A loop counter stands at the test of the loop, `At` inside of it. -/
inductive Pc (n : Nat) (Lk Chan : Type) where
  | forkret
  /-- Without a lock. -/
  | idle
  /-- With `lk`. -/
  | locked (lk : Lk)
  | sleep (chan : Chan) (lk : Lk) (at_ : SleepAt)
  | wakeup (chan : Chan) (lk : Lk) (p : Nat)
  | wakeupAt (chan : Chan) (lk : Lk) (p : Fin n) (tested : Bool)
  | kill (pid : Int) (p : Nat)
  | killAt (pid : Int) (p : Fin n) (tested : Bool)
  | exit (lk : Lk) (at_ : ExitAt)

/-- `yield` says where the thread is in a call of `yield` by a timer interrupt. -/
structure Thread (n : Nat) (Lk Chan : Type) where
  pc : Pc n Lk Chan
  yield : Option YieldAt

/-- What a CPU executes: the loop of `RR_scheduler`, or a process. -/
inductive Control (n : Nat) where
  | scan (p : Nat)
  | holding (p : Fin n)
  | running (p : Fin n)
  /-- `swtch` has returned, `p->lock` is held. -/
  | returned (p : Fin n)

/-- What the history records. -/
inductive Mark (n : Nat) (Chan : Type) where
  | released (i : Fin n)
  | started (i : Fin n) (chan : Chan)
  | finished (i : Fin n) (chan : Chan)
  deriving DecidableEq

structure Machine (n : Nat) (CPU Lk Chan : Type) where
  lock : Lock n Lk → Option CPU
  noff : CPU → Nat
  cpu : CPU → Control n
  thread : Fin n → Thread n Lk Chan
  state : Fin n → ProcState
  chan : Fin n → Option Chan
  killed : Fin n → Bool
  pid : Fin n → Int
  /-- The latest mark first. -/
  history : List (Mark n Chan)

/-- What a thread does where it has a choice; otherwise it goes on. -/
inductive Choice (Lk Chan : Type) where
  | next
  | timer
  | acquire (lk : Lk)
  | release
  | sleep (chan : Chan)
  | wakeup (chan : Chan)
  | kill (pid : Int)
  | exit

structure Event (CPU Lk Chan : Type) where
  cpu : CPU
  choice : Choice Lk Chan

inductive Stop where
  | panic
  /-- Another CPU holds the lock. -/
  | spins
  /-- The thread is elsewhere, or the interrupt is off. -/
  | disabled
  deriving DecidableEq

/-- One statement. -/
inductive Op (n : Nat) (Lk Chan : Type) where
  | acquire (l : Lock n Lk)
  | release (l : Lock n Lk) (history : List (Mark n Chan))
  /-- `p->state = st`, and `p->chan = chan` if there is a channel. -/
  | store (st : ProcState) (chan : Option Chan)
  | clearChan
  | sched
  /-- The test and store of `wakeup` for one slot. -/
  | wake (p : Fin n) (chan : Chan)
  /-- The test and stores of `kill` for one slot. -/
  | strike (p : Fin n) (pid : Int)
  | mark (m : Mark n Chan)
  | skip
  | panic

/-- The next statement of `yield`. -/
def yieldCode (i : Fin n) : YieldAt → Op n Lk Chan
  | .acquireProc => .acquire (.proc i)
  | .store => .store .runnable none
  | .sched => .sched
  | .releaseProc => .release (.proc i) []

def YieldAt.next : YieldAt → Option YieldAt
  | .acquireProc => some .store
  | .store => some .sched
  | .sched => some .releaseProc
  | .releaseProc => none

/-- The next statement of `sleep`. -/
def sleepCode (i : Fin n) (chan : Chan) (lk : Lk) : SleepAt → Op n Lk Chan × Pc n Lk Chan
  | .acquireProc => (.acquire (.proc i), .sleep chan lk .releaseLk)
  | .releaseLk => (.release (.lk lk) [.released i], .sleep chan lk .store)
  | .store => (.store .sleeping (some chan), .sleep chan lk .sched)
  | .sched => (.sched, .sleep chan lk .tidy)
  | .tidy => (.clearChan, .sleep chan lk .releaseProc)
  | .releaseProc => (.release (.proc i) [], .sleep chan lk .acquireLk)
  | .acquireLk => (.acquire (.lk lk), .locked lk)

/-- `exit` from where only `wait_lock` is held. -/
def exitCode (i : Fin n) (lk : Lk) : ExitAt → Op n Lk Chan × Pc n Lk Chan
  | .acquireProc => (.acquire (.proc i), .exit lk .store)
  | .store => (.store .zombie none, .exit lk .releaseLk)
  | .releaseLk => (.release (.lk lk) [], .exit lk .sched)
  | .sched => (.sched, .exit lk .gone)
  | .gone => (.panic, .exit lk .gone)

/-- The next statement of process `i`; `pids` are the pids of all slots. -/
def code (pids : Fin n → Int) (i : Fin n) :
    Pc n Lk Chan → Choice Lk Chan → Option (Op n Lk Chan × Pc n Lk Chan)
  | .forkret, .next => some (.release (.proc i) [], .idle)
  | .idle, .acquire lk => some (.acquire (.lk lk), .locked lk)
  | .idle, .kill pid => some (.skip, .kill pid 0)
  | .locked lk, .release => some (.release (.lk lk) [], .idle)
  | .locked lk, .sleep chan => some (.skip, .sleep chan lk .acquireProc)
  | .locked lk, .wakeup chan => some (.mark (.started i chan), .wakeup chan lk 0)
  | .locked lk, .exit => some (.skip, .exit lk .acquireProc)
  | .sleep chan lk at_, .next => some (sleepCode i chan lk at_)
  | .wakeup chan lk p, .next =>
    if h : p < n then
      if p = i then some (.skip, .wakeup chan lk (p + 1))
      else some (.acquire (.proc ⟨p, h⟩), .wakeupAt chan lk ⟨p, h⟩ false)
    else some (.mark (.finished i chan), .locked lk)
  | .wakeupAt chan lk p false, .next => some (.wake p chan, .wakeupAt chan lk p true)
  | .wakeupAt chan lk p true, .next => some (.release (.proc p) [], .wakeup chan lk (p + 1))
  | .kill pid p, .next =>
    if h : p < n then some (.acquire (.proc ⟨p, h⟩), .killAt pid ⟨p, h⟩ false)
    else some (.skip, .idle)
  | .killAt pid p false, .next => some (.strike p pid, .killAt pid p true)
  | .killAt pid p true, .next =>
    some (.release (.proc p) [], if pids p = pid then .idle else .kill pid (p + 1))
  | .exit lk at_, .next => some (exitCode i lk at_)
  | _, _ => none

variable [DecidableEq CPU] [DecidableEq Lk] [DecidableEq Chan]

def acquire (s : Machine n CPU Lk Chan) (c : CPU) (l : Lock n Lk) :
    Except Stop (Machine n CPU Lk Chan) :=
  if s.lock l = some c then .error .panic
  else if s.lock l ≠ none then .error .spins
  else .ok { s with
    lock := Function.update s.lock l (some c)
    noff := Function.update s.noff c (s.noff c + 1) }

def release (s : Machine n CPU Lk Chan) (c : CPU) (l : Lock n Lk) :
    Except Stop (Machine n CPU Lk Chan) :=
  if s.lock l ≠ some c then .error .panic
  else if s.noff c < 1 then .error .panic
  else .ok { s with
    lock := Function.update s.lock l none
    noff := Function.update s.noff c (s.noff c - 1) }

/-- The checks of `sched` and the switch to the scheduler of the CPU. -/
def sched (s : Machine n CPU Lk Chan) (c : CPU) (i : Fin n) :
    Except Stop (Machine n CPU Lk Chan) :=
  if s.lock (.proc i) ≠ some c then .error .panic
  else if s.noff c ≠ 1 then .error .panic
  else if s.state i = .running then .error .panic
  else .ok { s with cpu := Function.update s.cpu c (.returned i) }

/-- A slot that sleeps is made runnable. -/
def rouse (s : Machine n CPU Lk Chan) (p : Fin n) : Machine n CPU Lk Chan :=
  { s with state := Function.update s.state p .runnable }

def perform (s : Machine n CPU Lk Chan) (c : CPU) (i : Fin n) :
    Op n Lk Chan → Except Stop (Machine n CPU Lk Chan)
  | .acquire l => acquire s c l
  | .release l history => do
    let s ← release s c l
    pure { s with history := history ++ s.history }
  | .store st chan => .ok { s with
      state := Function.update s.state i st
      chan := if chan = none then s.chan else Function.update s.chan i chan }
  | .clearChan => .ok { s with chan := Function.update s.chan i none }
  | .sched => sched s c i
  | .wake p chan =>
    .ok (if s.state p = .sleeping ∧ s.chan p = some chan then rouse s p else s)
  | .strike p pid =>
    .ok (if s.pid p = pid then
      let s := { s with killed := Function.update s.killed p true }
      if s.state p = .sleeping then rouse s p else s
    else s)
  | .mark m => .ok { s with history := m :: s.history }
  | .skip => .ok s
  | .panic => .error .panic

def setThread (s : Machine n CPU Lk Chan) (i : Fin n) (t : Thread n Lk Chan) :
    Machine n CPU Lk Chan :=
  { s with thread := Function.update s.thread i t }

def Choice.isTimer : Choice Lk Chan → Bool
  | .timer => true
  | _ => false

/-- A step of process `i` on CPU `c`. Interrupts are on while no lock is held. -/
def process (s : Machine n CPU Lk Chan) (c : CPU) (i : Fin n) (a : Choice Lk Chan) :
    Except Stop (Machine n CPU Lk Chan) :=
  match (s.thread i).yield with
  | some at_ => do
    let s' ← perform s c i (yieldCode i at_)
    pure (setThread s' i { s.thread i with yield := at_.next })
  | none =>
    if a.isTimer then
      if s.noff c = 0 then
        .ok (setThread s i { s.thread i with yield := some .acquireProc })
      else .error .disabled
    else
      match code s.pid i (s.thread i).pc a with
      | some (op, pc) => do
        let s' ← perform s c i op
        pure (setThread s' i { s.thread i with pc := pc })
      | none => .error .disabled

def step (s : Machine n CPU Lk Chan) (e : Event CPU Lk Chan) :
    Except Stop (Machine n CPU Lk Chan) :=
  match s.cpu e.cpu with
  | .scan p =>
    if h : p < n then do
      let s ← acquire s e.cpu (.proc ⟨p, h⟩)
      pure { s with cpu := Function.update s.cpu e.cpu (.holding ⟨p, h⟩) }
    else .ok { s with cpu := Function.update s.cpu e.cpu (.scan 0) }
  | .holding p =>
    if s.state p = .runnable then
      .ok { s with
        state := Function.update s.state p .running
        cpu := Function.update s.cpu e.cpu (.running p) }
    else do
      let s ← release s e.cpu (.proc p)
      pure { s with cpu := Function.update s.cpu e.cpu (.scan (p + 1)) }
  | .running p => process s e.cpu p e.choice
  | .returned p => do
    let s ← release s e.cpu (.proc p)
    pure { s with cpu := Function.update s.cpu e.cpu (.scan (p + 1)) }

/-- The processes in `up` are runnable and have not run yet. -/
def boot (up : Fin n → Bool) (pid : Fin n → Int) : Machine n CPU Lk Chan where
  lock := fun _ => none
  noff := fun _ => 0
  cpu := fun _ => .scan 0
  thread := fun _ => ⟨.forkret, none⟩
  state := fun i => if up i then .runnable else .unused
  chan := fun _ => none
  killed := fun _ => false
  pid := pid
  history := []

end SleepWakeup
