import Xv6.ProcTable
import Xv6.Lib.EventRuns
import Xv6.Lib.Outcomes

/-!
# Processes with their kernel threads

The process table together with the place at which the kernel thread of every
process stands, so that traps, system calls and preemption inside the kernel
follow the text of `kernel/trap.c` and `kernel/proc.c`. A step is a stretch of
code that cannot be preempted: a critical section, or the part of a trap handler
that runs with interrupts disabled. The two projects share all of it but the
scheduler, and `struct proc` of `project1.b` has no `mlfqInfo`.
-/

namespace ProcessThreads

open ProcTable EventRuns Outcomes

inductive Version where
  | project1b | project1c
  deriving DecidableEq

abbrev nofile : Nat := 16

/-- A `struct file`, by its place in the table of open files. -/
abbrev File := Nat

/-- Where the kernel thread of a slot continues. -/
inductive Thread where
  | forkret
  | user
  | syscall
  /-- `fork` has released the lock of `np`; its parent is not set. -/
  | forked (np : Slot)
  /-- `fork` has set the parent of `np`, which is not yet runnable. -/
  | adopted (np : Slot)
  /-- `exit` is about to look at descriptor `fd`. -/
  | exiting (status : Int) (fd : Nat)
  /-- Behind the last `sched` of `exit`, or never used. -/
  | gone
  deriving DecidableEq

/-- A slot. `lives` and `unexpected` are history: how often the slot was freed,
and how many unexpected traps were taken since. -/
structure Cell where
  proc : Proc
  thread : Thread
  ofile : Fin nofile → Option File
  lives : Nat
  unexpected : Nat

structure Machine where
  cell : Slot → Cell
  nextpid : Int

inductive Cause where
  | ecall | timer | device | unexpected
  deriving DecidableEq

inductive Event where
  /-- The turn of slot `i` in the loop of the round-robin scheduler. -/
  | scheduler (i : Slot)
  /-- `MLFQ_scheduler` switches to the process it has kept in `p`. -/
  | mlfq (i : Slot)
  | usertrap (i : Slot) (cause : Cause)
  | kerneltrap (i : Slot) (timer : Bool)
  /-- The end of `usertrap` after a system call, or of `forkret`. -/
  | usertrapret (i : Slot)
  | sleep (i : Slot) (chan : Chan)
  | wakeup (self : Option Slot) (chan : Chan)
  | kill (pid : Int)
  /-- `fork` up to the release of `np->lock`. -/
  | fork (i : Slot) (memory copied : Bool)
  | adopt (i : Slot)
  | launch (i : Slot)
  | exit (i : Slot) (status : Int)
  /-- One turn of the loop over descriptors in `exit`. -/
  | fileclose (i : Slot)
  /-- `exit` from `wait_lock` to `sched`. -/
  | finish (i : Slot)
  | wait (i : Slot) (delivered : Bool)
  | fdalloc (i : Slot) (fd : Fin nofile) (f : File)
  | close (i : Slot) (fd : Fin nofile)

inductive Panic where
  | initExiting
  | zombieExit
  /-- The slot that was switched to has no page table. -/
  | noProcess
  deriving DecidableEq

def Machine.proc (s : Machine) (i : Slot) : Proc := (s.cell i).proc
def Machine.thread (s : Machine) (i : Slot) : Thread := (s.cell i).thread

def Machine.table (s : Machine) : Table := ⟨s.proc, s.nextpid⟩

def Machine.set (s : Machine) (i : Slot) (c : Cell) : Machine :=
  { s with cell := Function.update s.cell i c }

def Machine.setTable (s : Machine) (t : Table) : Machine where
  cell := fun i => { s.cell i with proc := t.proc i }
  nextpid := t.nextpid

def Cell.setProc (c : Cell) (p : Proc) : Cell := { c with proc := p }
def Cell.setThread (c : Cell) (t : Thread) : Cell := { c with thread := t }

/-- The process runs in the kernel with interrupts enabled. -/
def Thread.InKernel (t : Thread) : Prop := t ≠ .user ∧ t ≠ .gone

/-- `sleep` can be called: no code between the sections of `fork` does. -/
def Thread.MaySleep : Thread → Prop
  | .forkret | .syscall | .exiting .. => True
  | _ => False

instance (t : Thread) : Decidable t.InKernel := inferInstanceAs (Decidable (_ ∧ _))

instance : ∀ t : Thread, Decidable t.MaySleep
  | .forkret | .syscall | .exiting .. => isTrue trivial
  | .user | .forked _ | .adopted _ | .gone => isFalse not_false

/-- `exit` by process `i`, up to its loop over the descriptors. -/
def exit (i : Slot) (status : Int) (c : Cell) : Except Panic Cell :=
  if i = initproc then .error .initExiting else .ok (c.setThread (.exiting status 0))

def yield (p : Proc) : Proc := { p with state := .runnable, context := .yield }

def usertrap (i : Slot) (cause : Cause) (c : Cell) : Except Panic Cell :=
  let p := { c.proc with trapCount := c.proc.trapCount + 1 }
  match cause with
  | .ecall =>
    let p := { p with systemcallCount := p.systemcallCount + 1 }
    if p.killed then exit i (-1) (c.setProc p) else .ok ((c.setProc p).setThread .syscall)
  | .unexpected =>
    exit i (-1) { c with proc := { p with killed := true }, unexpected := c.unexpected + 1 }
  | cause =>
    let p := { p with interruptCount := p.interruptCount + 1 }
    if p.killed then exit i (-1) (c.setProc p)
    else if cause = .timer then
      .ok (c.setProc (yield { p with preemptCount := p.preemptCount + 1 }))
    else .ok (c.setProc p)

def kerneltrap (timer : Bool) (p : Proc) : Proc :=
  if timer then yield { p with preemptCount := p.preemptCount + 1 } else p

/-- The tail of `usertrap` behind `syscall`, and of `forkret`. -/
def usertrapret (i : Slot) (c : Cell) : Except Panic Cell :=
  if c.thread = .syscall ∧ c.proc.killed then exit i (-1) c else .ok (c.setThread .user)

/-- The schedulers of both projects up to `swtch`. -/
def dispatched (v : Version) (p : Proc) : Proc :=
  match v with
  | .project1b => { swtchTo p with runCount := p.runCount + 1 }
  | .project1c => swtchTo p

/-- The process that `fork` makes of slot `np`, before the lock is released. -/
def child (parent np : Cell) : Cell :=
  { np with thread := .forkret, ofile := parent.ofile }

def fork (s : Machine) (i : Slot) (memory copied : Bool) : Machine :=
  match allocproc s.table memory with
  | (none, t) => s.setTable t
  | (some np, t) =>
    let r := s.setTable t
    if copied then
      (r.set np (child (r.cell i) (r.cell np))).set i ((r.cell i).setThread (.forked np))
    else r.set np ((r.cell np).setProc (freeproc (r.proc np)))

/-- `wait_lock` keeps the slots' parents for the time of this section. -/
def adopt (s : Machine) (i np : Slot) : Machine :=
  (s.set np ((s.cell np).setProc { s.proc np with parent := some i })).set i
    ((s.cell i).setThread (.adopted np))

def launch (s : Machine) (i np : Slot) : Machine :=
  (s.set np ((s.cell np).setProc { s.proc np with state := .runnable })).set i
    ((s.cell i).setThread .syscall)

def Cell.closeFd (c : Cell) (fd : Fin nofile) : Cell :=
  { c with ofile := Function.update c.ofile fd none }

def fileclose (status : Int) (fd : Nat) (c : Cell) : Cell :=
  if h : fd < nofile then (c.closeFd ⟨fd, h⟩).setThread (.exiting status (fd + 1)) else c

def finish (s : Machine) (i : Slot) (status : Int) : Machine :=
  let r := s.setTable (ProcTable.exit s.table i status)
  r.set i ((r.cell i).setThread .gone)

/-- `freeproc`, as history sees it. -/
def Cell.free (c : Cell) : Cell :=
  { c with proc := freeproc c.proc, lives := c.lives + 1, unexpected := 0 }

/-- One turn of the loop in `wait`. -/
def wait (s : Machine) (i : Slot) (delivered : Bool) : Machine :=
  match zombieChild s.table i with
  | some j => if delivered then s.set j (s.cell j).free else s
  | none => s.setTable (ProcTable.wait s.table i delivered).2

/-- Process `i` is on a CPU, with its thread at a place that satisfies `P`. -/
def Machine.At (s : Machine) (i : Slot) (P : Thread → Prop) : Prop :=
  (s.proc i).state = .running ∧ P (s.thread i)

instance (s : Machine) (i : Slot) (P : Thread → Prop) [DecidablePred P] :
    Decidable (s.At i P) := inferInstanceAs (Decidable (_ ∧ _))

/-- A change of one slot, by a function that may panic. -/
def Machine.put (s : Machine) (i : Slot) (c : Except Panic Cell) : Except Panic Machine :=
  c.map (s.set i)

/-- An event whose guard fails changes nothing. `MLFQ_scheduler` does not test the
state of `p`; it is taken to run alone, so that `p` is not executing already. -/
def step (v : Version) (s : Machine) (e : Event) : Except Panic Machine :=
  match e with
  | .scheduler i =>
    if (s.proc i).state = .runnable then
      .ok (s.set i ((s.cell i).setProc (dispatched v (s.proc i))))
    else .ok s
  | .mlfq i =>
    if v = .project1b ∨ (s.proc i).state = .running then .ok s
    else if (s.proc i).state = .unused then .error .noProcess
    else if s.thread i = .gone then .error .zombieExit
    else .ok (s.set i ((s.cell i).setProc (swtchTo (s.proc i))))
  | .usertrap i cause =>
    if s.At i (· = .user) then s.put i (usertrap i cause (s.cell i)) else .ok s
  | .kerneltrap i timer =>
    if s.At i Thread.InKernel then
      .ok (s.set i ((s.cell i).setProc (kerneltrap timer (s.proc i))))
    else .ok s
  | .usertrapret i =>
    if s.At i fun t => t = .syscall ∨ t = .forkret then s.put i (usertrapret i (s.cell i))
    else .ok s
  | .sleep i chan =>
    if s.At i Thread.MaySleep then .ok (s.setTable (ProcTable.sleep s.table i chan)) else .ok s
  | .wakeup self chan => .ok (s.setTable (wakeup s.table self (some chan)))
  | .kill pid => .ok (s.setTable (kill s.table pid).2)
  | .fork i memory copied =>
    if s.At i (· = .syscall) then .ok (fork s i memory copied) else .ok s
  | .adopt i =>
    match s.thread i with
    | .forked np => if (s.proc i).state = .running then .ok (adopt s i np) else .ok s
    | _ => .ok s
  | .launch i =>
    match s.thread i with
    | .adopted np => if (s.proc i).state = .running then .ok (launch s i np) else .ok s
    | _ => .ok s
  | .exit i status =>
    if s.At i (· = .syscall) then s.put i (exit i status (s.cell i)) else .ok s
  | .fileclose i =>
    match s.thread i with
    | .exiting status fd =>
      if (s.proc i).state = .running then .ok (s.set i (fileclose status fd (s.cell i))) else .ok s
    | _ => .ok s
  | .finish i =>
    match s.thread i with
    | .exiting status fd =>
      if (s.proc i).state = .running ∧ nofile ≤ fd then .ok (finish s i status) else .ok s
    | _ => .ok s
  | .wait i delivered =>
    if s.At i (· = .syscall) then .ok (wait s i delivered) else .ok s
  | .fdalloc i fd f =>
    if s.At i (· = .syscall) ∧ (s.cell i).ofile fd = none then
      .ok (s.set i { s.cell i with ofile := Function.update (s.cell i).ofile fd (some f) })
    else .ok s
  | .close i fd =>
    if s.At i (· = .syscall) then .ok (s.set i ((s.cell i).closeFd fd)) else .ok s

/-- After `userinit`: the first process is to start in `forkret`. -/
def boot : Machine where
  cell := fun i => {
    proc := (userinit { proc := fun _ => .boot, nextpid := 1 }).proc i
    thread := if i = initproc then .forkret else .gone
    ofile := fun _ => none
    lives := 0
    unexpected := 0 }
  nextpid := 2

def Reachable (v : Version) (s : Machine) : Prop := ∃ es, run (step v) boot es = .ok s

end ProcessThreads
