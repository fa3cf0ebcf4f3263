import Mathlib.Algebra.GroupWithZero.Nat
import Mathlib.Data.List.FinRange
import Mathlib.Logic.Function.Basic

/-!
# The process table

The part of `struct proc` that scheduling reads or writes, and the operations
of `kernel/proc.c` on the table: allocation, release, fork, exit, wait, sleep,
wakeup, kill and yield. Each operation is one step: a critical section of the
source, or the sections of one call taken together. A saved `context` is
represented by the place at which `swtch` resumes it. User memory, open files
and names are not part of this state.
-/

namespace ProcTable

abbrev nproc : Nat := 64
abbrev mlfqMaxLevel : Nat := 10

/-- A pointer into `proc[NPROC]`, as the index of its element. -/
abbrev Slot := Fin nproc
abbrev Level := Fin mlfqMaxLevel

instance : NeZero nproc := ⟨by decide⟩
instance : NeZero mlfqMaxLevel := ⟨by decide⟩

/-- `initproc`: `userinit` runs first and `allocproc` takes the first slot. -/
def initproc : Slot := 0

inductive ProcState where
  | unused | used | sleeping | runnable | running | zombie
  deriving DecidableEq, Repr

/-- Sleep channels are addresses that are only compared. -/
inductive Chan where
  | proc (i : Slot)
  | ticks
  | other (address : Nat)
  deriving DecidableEq

inductive Context where
  | zero | forkret | yield | sleep | exit
  deriving DecidableEq, Repr

/-- `ticks` stays below `2 * (priority + 1)` and `priority` below ten, so they are
plain numbers, and so is `ticksAtMaxPriority`, which counts passes up to `n`;
`tickCounts` only grows and wraps. -/
structure MLFQInfoReport where
  addedToMLFQ : Bool
  priority : Nat
  ticks : Level → Nat
  ticksAtMaxPriority : Nat
  tickCounts : Level → BitVec 32

def MLFQInfoReport.zero : MLFQInfoReport where
  addedToMLFQ := false
  priority := 0
  ticks := fun _ => 0
  ticksAtMaxPriority := 0
  tickCounts := fun _ => 0

structure Proc where
  state : ProcState
  chan : Option Chan
  killed : Bool
  xstate : Int
  pid : Int
  parent : Option Slot
  context : Context
  runCount : BitVec 32
  systemcallCount : BitVec 32
  interruptCount : BitVec 32
  preemptCount : BitVec 32
  trapCount : BitVec 32
  sleepCount : BitVec 32
  mlfqInfo : MLFQInfoReport

/-- A slot of the zeroed kernel image after `procinit`. -/
def Proc.boot : Proc where
  state := .unused
  chan := none
  killed := false
  xstate := 0
  pid := 0
  parent := none
  context := .zero
  runCount := 0
  systemcallCount := 0
  interruptCount := 0
  preemptCount := 0
  trapCount := 0
  sleepCount := 0
  mlfqInfo := .zero

structure Table where
  proc : Slot → Proc
  nextpid : Int

def Table.set (t : Table) (i : Slot) (p : Proc) : Table :=
  { t with proc := Function.update t.proc i p }

@[simp] theorem Table.set_self (t : Table) (i : Slot) (p : Proc) :
    (t.set i p).proc i = p := by
  simp [Table.set]

@[simp] theorem Table.set_other (t : Table) {i j : Slot} (p : Proc) (h : j ≠ i) :
    (t.set i p).proc j = t.proc j := by
  simp [Table.set, h]

def freeproc (p : Proc) : Proc :=
  { p with
    pid := 0, parent := none, chan := none, killed := false, xstate := 0,
    state := .unused,
    runCount := 0, systemcallCount := 0, interruptCount := 0,
    preemptCount := 0, trapCount := 0, sleepCount := 0,
    mlfqInfo := .zero }

def unusedSlot (t : Table) : Option Slot :=
  (List.finRange nproc).find? fun j => (t.proc j).state = .unused

theorem unusedSlot_state {t : Table} {j : Slot} (h : unusedSlot t = some j) :
    (t.proc j).state = .unused := by
  have := List.find?_some h
  simpa using this

/-- `memory` says whether the trapframe page and the page table were obtained. -/
def allocproc (t : Table) (memory : Bool) : Option Slot × Table :=
  match unusedSlot t with
  | none => (none, t)
  | some j =>
    let p := { t.proc j with pid := t.nextpid, state := .used }
    let t := { t with nextpid := t.nextpid + 1 }
    if memory then
      (some j, t.set j { p with context := .forkret, mlfqInfo := .zero })
    else (none, t.set j (freeproc p))

/-- `userinit`: the first process, made runnable without a parent. -/
def userinit (t : Table) : Table :=
  match allocproc t true with
  | (some j, t) => t.set j { t.proc j with state := .runnable }
  | (none, t) => t

/-- `fork` of process `i`; `memory` covers `allocproc`, `copied` is `uvmcopy`. -/
def fork (t : Table) (i : Slot) (memory copied : Bool) : Int × Table :=
  match allocproc t memory with
  | (none, t) => (-1, t)
  | (some j, t) =>
    if copied then
      ((t.proc j).pid, t.set j { t.proc j with parent := some i, state := .runnable })
    else (-1, t.set j (freeproc (t.proc j)))

/-- Everything asleep on `chan` but the caller becomes runnable. -/
def wakeup (t : Table) (self : Option Slot) (chan : Option Chan) : Table :=
  { t with
    proc := fun j =>
      if some j ≠ self ∧ (t.proc j).state = .sleeping ∧ (t.proc j).chan = chan
      then { t.proc j with state := .runnable } else t.proc j }

def yield (t : Table) (i : Slot) : Table :=
  t.set i { t.proc i with state := .runnable, context := .yield }

def sleep (t : Table) (i : Slot) (chan : Chan) : Table :=
  t.set i { t.proc i with
    sleepCount := (t.proc i).sleepCount + 1,
    chan := some chan, state := .sleeping, context := .sleep }

def kill (t : Table) (pid : Int) : Int × Table :=
  match (List.finRange nproc).find? fun j => (t.proc j).pid = pid with
  | none => (-1, t)
  | some j =>
    let p := { t.proc j with killed := true }
    (0, t.set j (if p.state = .sleeping then { p with state := .runnable } else p))

/-- The loop wakes `initproc` once for each child; waking it once is the same. -/
def reparent (t : Table) (i : Slot) : Table :=
  let moved := { t with
    proc := fun j =>
      if (t.proc j).parent = some i then { t.proc j with parent := some initproc }
      else t.proc j }
  if ∃ j, (t.proc j).parent = some i then
    wakeup moved (some i) (some (.proc initproc))
  else moved

/-- `exit` from the point where `wait_lock` is acquired up to `sched`. -/
def exit (t : Table) (i : Slot) (status : Int) : Table :=
  let t := reparent t i
  let t := wakeup t (some i) ((t.proc i).parent.map .proc)
  t.set i { t.proc i with xstate := status, state := .zombie, context := .exit }

def zombieChild (t : Table) (i : Slot) : Option Slot :=
  (List.finRange nproc).find? fun j =>
    (t.proc j).parent = some i ∧ (t.proc j).state = .zombie

theorem zombieChild_state {t : Table} {i j : Slot} (h : zombieChild t i = some j) :
    (t.proc j).parent = some i ∧ (t.proc j).state = .zombie := by
  have := List.find?_some h
  simpa using this

/-- One turn of the loop in `wait`: it returns, or goes to sleep on itself.
`delivered` says whether the exit status could be copied out. -/
def wait (t : Table) (i : Slot) (delivered : Bool) : Option Int × Table :=
  match zombieChild t i with
  | some j =>
    if delivered then (some (t.proc j).pid, t.set j (freeproc (t.proc j)))
    else (some (-1), t)
  | none =>
    if (∀ j, (t.proc j).parent ≠ some i) ∨ (t.proc i).killed then (some (-1), t)
    else (none, sleep t i (.proc i))

/-- `swtch` to a process under its lock; a process that resumes in `sleep`
clears its channel before it releases the lock. -/
def swtchTo (p : Proc) : Proc :=
  { p with state := .running, chan := if p.context = .sleep then none else p.chan }

end ProcTable
