import Mathlib.Logic.Function.Basic
import Xv6.Lib.ByteMemory
import Xv6.Lib.EventRuns
import Xv6.Lib.RingCounters

/-!
# The console's input buffer

The interrupt handler puts what is typed into a ring and edits its unfinished line,
readers take what the handler has committed. A step is a call of `consoleintr`, one
round of the loop of `consoleread`, or a kill. A wakeup is part of the critical
section of `cons.lock` that makes it, and so is the start of `sleep`, which has the
process's lock until the process is `SLEEPING`.
-/

namespace ConsoleInput

open ByteMemory EventRuns RingCounters Function

abbrev INPUT_BUF_SIZE : Nat := 128

/-- Control-x. -/
def C (x : Byte) : Byte := x - 0x40

def ctrlD : Byte := C 0x44
def ctrlH : Byte := C 0x48
def ctrlP : Byte := C 0x50
def ctrlU : Byte := C 0x55
def delete : Byte := 0x7f
def newline : Byte := 0x0a
def carriageReturn : Byte := 0x0d

structure Cons where
  buf : Nat → Byte
  /-- Read index -/
  r : BitVec 32
  /-- Write index -/
  w : BitVec 32
  /-- Edit index -/
  e : BitVec 32

/-- `cons.buf[(cons.e-1) % INPUT_BUF_SIZE]`. -/
def Cons.last (k : Cons) : Byte := k.buf (slot INPUT_BUF_SIZE (k.e - 1))

/-- `cons.buf[cons.r % INPUT_BUF_SIZE]`. -/
def Cons.front (k : Cons) : Byte := k.buf (slot INPUT_BUF_SIZE k.r)

/-- `cons.buf[cons.e++ % INPUT_BUF_SIZE] = c`. -/
def Cons.store (k : Cons) (c : Byte) : Cons :=
  { k with buf := update k.buf (slot INPUT_BUF_SIZE k.e) c, e := k.e + 1 }

/-- The loop of kill line, which goes down from `e` to `w` at most. -/
def Cons.killFrom : Nat → Cons → Cons
  | 0, k => k
  | rounds + 1, k =>
    if k.e ≠ k.w ∧ k.last ≠ newline then killFrom rounds { k with e := k.e - 1 } else k

def Cons.killLine (k : Cons) : Cons := killFrom (span k.w k.e) k

/-- Where a process is in `consoleread`: at the test of the loop with the lock, or in `sleep`. -/
inductive Pc
  | idle
  | reading (target n : Nat)
  | sleeping (target n : Nat)

/-- What the history records. -/
inductive Mark
  | typed (c : Byte)
  | taken

structure State (Proc : Type) where
  cons : Cons
  /-- The holder of `cons.lock`. -/
  lock : Option Proc
  pc : Proc → Pc
  /-- The state is `SLEEPING`. -/
  asleep : Proc → Bool
  killed : Proc → Bool
  /-- What the last call returned. -/
  ret : Proc → Int
  /-- Ghost: what was typed and what readers took out of the ring, the latest last. -/
  history : List Mark
  /-- Ghost: the bytes copied to readers. -/
  delivered : List Byte

inductive Event (Proc : Type)
  | typed (c : Byte)
  /-- A call of `consoleread`; a negative `n` does what 0 does. -/
  | consoleread (p : Proc) (n : Nat)
  /-- A reader goes on; `copy` says whether `either_copyout` succeeds in the step. -/
  | go (p : Proc) (copy : Bool)
  | kill (p : Proc)

inductive Stop
  /-- The lock is held. -/
  | spins
  /-- Not what the process does next. -/
  | disabled

variable {Proc : Type} [DecidableEq Proc]

namespace State

def goTo (s : State Proc) (p : Proc) (pc : Pc) : State Proc := { s with pc := update s.pc p pc }

/-- `release(&cons.lock)` and the return from the call. -/
def leave (s : State Proc) (p : Proc) (r : Int) : State Proc :=
  { s.goTo p .idle with lock := none, ret := update s.ret p r }

def sleep (s : State Proc) (p : Proc) (target n : Nat) : State Proc :=
  { s.goTo p (.sleeping target n) with lock := none, asleep := update s.asleep p true }

/-- `cons.r++`. -/
def take (s : State Proc) : State Proc :=
  { s with cons := { s.cons with r := s.cons.r + 1 }, history := s.history ++ [.taken] }

end State

/-- The part of `consoleintr` that stores a character and wakes readers up if the line is over. -/
def accept (s : State Proc) (c : Byte) : State Proc :=
  let k := s.cons.store c
  if c = newline ∨ c = ctrlD ∨ span k.r k.e = INPUT_BUF_SIZE then
    { s with cons := { k with w := k.e }, asleep := fun _ => false }
  else { s with cons := k }

/-- The switch of `consoleintr`. -/
def input (s : State Proc) (c : Byte) : State Proc :=
  if c = ctrlP then s
  else if c = ctrlU then { s with cons := s.cons.killLine }
  else if c = ctrlH ∨ c = delete then
    if s.cons.e ≠ s.cons.w then { s with cons := { s.cons with e := s.cons.e - 1 } } else s
  else if c ≠ 0 ∧ span s.cons.r s.cons.e < INPUT_BUF_SIZE then
    accept s (if c = carriageReturn then newline else c)
  else s

def consoleintr (s : State Proc) (c : Byte) : State Proc :=
  { input s c with history := s.history ++ [.typed c] }

/-- One round of the loop of `consoleread`. -/
def consoleread (s : State Proc) (p : Proc) (target n : Nat) (copy : Bool) : State Proc :=
  if n = 0 then s.leave p (target - n : Int)
  else if s.cons.r = s.cons.w then
    if s.killed p then s.leave p (-1) else s.sleep p target n
  else
    let c := s.cons.front
    if c = ctrlD then
      -- the mark is saved for the next call, unless it is all that this call has read
      if n < target then
        { s with cons := { s.cons with r := s.cons.r + 1 - 1 } }.leave p (target - n : Int)
      else s.take.leave p (target - n : Int)
    else if copy = false then s.take.leave p (target - n : Int)
    else
      let t := { s.take with delivered := s.delivered ++ [c] }
      if c = newline then t.leave p (target - (n - 1 : Nat) : Int)
      else t.goTo p (.reading target (n - 1))

def acquire (s : State Proc) (p : Proc) (pc : Pc) : Except Stop (State Proc) :=
  match s.lock with
  | some _ => .error .spins
  | none => .ok { s.goTo p pc with lock := some p }

def step (s : State Proc) : Event Proc → Except Stop (State Proc)
  | .typed c =>
    match s.lock with
    | some _ => .error .spins
    | none => .ok (consoleintr s c)
  | .consoleread p n =>
    match s.pc p with
    | .idle => acquire s p (.reading n n)
    | _ => .error .disabled
  | .go p copy =>
    match s.pc p with
    | .idle => .error .disabled
    | .reading target n => .ok (consoleread s p target n copy)
    | .sleeping target n => if s.asleep p then .error .disabled else acquire s p (.reading target n)
  | .kill p =>
    .ok { s with killed := update s.killed p true, asleep := update s.asleep p false }

/-- After `consoleinit`; `cons` starts as zeroes. -/
def fresh : State Proc where
  cons := ⟨fun _ => 0, 0, 0, 0⟩
  lock := none
  pc := fun _ => .idle
  asleep := fun _ => false
  killed := fun _ => false
  ret := fun _ => 0
  history := []
  delivered := []

end ConsoleInput
