import Mathlib.Logic.Function.Basic
import Xv6.Lib.ByteMemory
import Xv6.Lib.EventRuns
import Xv6.Lib.LockHolders
import Xv6.Lib.RingCounters

/-!
# Calls on a pipe

Any number of processes write to one pipe, read from it, close its ends and kill each
other, on any number of CPUs. A step is one round of a loop or one critical section of
a process's lock, so that a kill may come between any two bytes. `sleep` is in three
steps: it takes the process's lock and gives up the lock of the pipe, the process
becomes `SLEEPING` and loses its lock in the scheduler, and once it runs again it
waits for the lock of the pipe. A process between the first two holds its own lock,
and neither `wakeup` nor `kill` gets past it.
-/

namespace PipeCalls

open ByteMemory EventRuns Function LockHolders RingCounters

abbrev PIPESIZE : Nat := 512

structure Pipe where
  data : Nat → Byte
  nread : BitVec 32
  nwrite : BitVec 32
  readopen : Bool
  writeopen : Bool

def Pipe.empty (pi : Pipe) : Prop := pi.nread = pi.nwrite

def Pipe.full (pi : Pipe) : Prop := pi.nwrite = pi.nread + BitVec.ofNat 32 PIPESIZE

instance (pi : Pipe) : Decidable pi.empty := inferInstanceAs (Decidable (_ = _))

instance (pi : Pipe) : Decidable pi.full := inferInstanceAs (Decidable (_ = _))

/-- `pi->data[pi->nwrite++ % PIPESIZE] = ch`. -/
def Pipe.store (pi : Pipe) (ch : Byte) : Pipe :=
  { pi with data := update pi.data (slot PIPESIZE pi.nwrite) ch, nwrite := pi.nwrite + 1 }

/-- `pi->data[pi->nread % PIPESIZE]`. -/
def Pipe.front (pi : Pipe) : Byte := pi.data (slot PIPESIZE pi.nread)

/-- `pi->nread++`. -/
def Pipe.remove (pi : Pipe) : Pipe := { pi with nread := pi.nread + 1 }

def Pipe.close (pi : Pipe) (writable : Bool) : Pipe :=
  if writable then { pi with writeopen := false } else { pi with readopen := false }

/-- The two channels `&pi->nread` and `&pi->nwrite`. -/
inductive Chan
  | nread | nwrite
  deriving DecidableEq

/-- A call of `pipewrite`. -/
structure Write where
  /-- What `copyin` would read. -/
  bytes : List Byte
  /-- The variable `i`. -/
  count : Nat
  /-- Ghost: `i` at the last wakeup of the readers. -/
  announced : Nat
  /-- Ghost: the number of bytes stored before the call. -/
  start : Nat
  /-- Ghost: there was room for all bytes at the call. -/
  fits : Bool

/-- What follows a call of `wakeup`. -/
inductive After
  | sleep (w : Write)
  | wrote (w : Write)
  | read (i : Nat)
  | closed

/-- The loop that a call of `sleep` returns to. -/
inductive Back
  | writing (w : Write)
  | reading (n : Nat)

/-- Where a process is: outside, at the test of a loop with the lock, in `wakeup` before
slot `p`, or in `sleep` before and after it becomes `SLEEPING`. -/
inductive Pc
  | idle
  | writing (w : Write)
  | reading (n : Nat)
  | copying (n i : Nat)
  | waking (chan : Chan) (p : Nat) (after : After)
  | drowsy (chan : Chan) (back : Back)
  | sleeping (chan : Chan) (back : Back)

def Back.resume : Back → Pc
  | .writing w => .writing w
  | .reading n => .reading n

/-- The process is past the start of `sleep`: with its own lock, or without. -/
def Pc.drowses : Pc → Bool
  | .drowsy _ _ => true
  | _ => false

def Pc.sleepsOn (chan : Chan) : Pc → Bool
  | .sleeping c _ => c = chan
  | _ => false

structure State (n : Nat) where
  pipe : Pipe
  /-- The holder of `pi->lock`. -/
  lock : Option (Fin n)
  pc : Fin n → Pc
  /-- The state is `SLEEPING`. -/
  asleep : Fin n → Bool
  killed : Fin n → Bool
  /-- What the last call returned. -/
  ret : Fin n → Int
  /-- `kfree` has been called. -/
  freed : Bool
  /-- Ghost: the bytes stored, the bytes given to readers and the writes that are over. -/
  stored : List Byte
  handed : List Byte
  finished : List Write

inductive Event (n : Nat)
  | pipewrite (p : Fin n) (bytes : List Byte)
  | piperead (p : Fin n) (count : Nat)
  | pipeclose (p : Fin n) (writable : Bool)
  /-- The process goes on; `copy` says whether a user copy made in the step succeeds. -/
  | go (p : Fin n) (copy : Bool)
  | kill (p : Fin n)

inductive Stop
  /-- The lock is held. -/
  | spins
  /-- Not what the process does next. -/
  | disabled
  /-- No file refers to the pipe any more. -/
  | freed

variable {n : Nat}

namespace State

def goTo (s : State n) (p : Fin n) (pc : Pc) : State n := { s with pc := update s.pc p pc }

/-- `release(&pi->lock)` and the return from the call. -/
def leave (s : State n) (p : Fin n) (r : Int) : State n :=
  { s.goTo p .idle with lock := none, ret := update s.ret p r }

/-- A write is over. -/
def finish (s : State n) (p : Fin n) (w : Write) (r : Int) : State n :=
  { s.leave p r with finished := w :: s.finished }

/-- The first step of `sleep`. -/
def sleep (s : State n) (p : Fin n) (chan : Chan) (back : Back) : State n :=
  { s.goTo p (.drowsy chan back) with lock := none }

/-- The critical section of `wakeup` for one slot. -/
def rouse (s : State n) (p : Fin n) (chan : Chan) : State n :=
  { s with asleep := update s.asleep p (s.asleep p && !(s.pc p).sleepsOn chan) }

end State

def acquire (s : State n) (p : Fin n) (pc : Pc) : Except Stop (State n) :=
  if s.freed then .error .freed
  else match s.lock with
    | some _ => .error .spins
    | none => .ok { s.goTo p pc with lock := some p }

/-- One round of the loop of `pipewrite`. -/
def pipewrite (s : State n) (p : Fin n) (w : Write) (copy : Bool) : State n :=
  match w.bytes[w.count]? with
  | none => s.goTo p (.waking .nread 0 (.wrote w))
  | some ch =>
    if s.pipe.readopen = false ∨ s.killed p then s.finish p w (-1)
    else if s.pipe.full then
      s.goTo p (.waking .nread 0 (.sleep { w with announced := w.count }))
    else if copy = false then s.goTo p (.waking .nread 0 (.wrote w))
    else { s.goTo p (.writing { w with count := w.count + 1 }) with
      pipe := s.pipe.store ch, stored := s.stored ++ [ch] }

/-- One round of the loop of `piperead` that waits for data. -/
def pipereadWait (s : State n) (p : Fin n) (count : Nat) : State n :=
  if s.pipe.empty ∧ s.pipe.writeopen then
    if s.killed p then s.leave p (-1) else s.sleep p .nread (.reading count)
  else s.goTo p (.copying count 0)

/-- One round of the loop of `piperead` that copies. -/
def pipereadCopy (s : State n) (p : Fin n) (count i : Nat) (copy : Bool) : State n :=
  if i < count then
    if s.pipe.empty then s.goTo p (.waking .nwrite 0 (.read i))
    else if copy = false then
      { s.goTo p (.waking .nwrite 0 (.read i)) with pipe := s.pipe.remove }
    else { s.goTo p (.copying count (i + 1)) with
      pipe := s.pipe.remove, handed := s.handed ++ [s.pipe.front] }
  else s.goTo p (.waking .nwrite 0 (.read i))

/-- What the caller does after `wakeup`. -/
def resume (s : State n) (p : Fin n) : After → State n
  | .sleep w => s.sleep p .nwrite (.writing w)
  | .wrote w => s.finish p w w.count
  | .read i => s.leave p i
  | .closed =>
    let freed := s.freed || !s.pipe.readopen && !s.pipe.writeopen
    { s.leave p 0 with freed := freed }

/-- One round of `wakeup`. -/
def wakeup (s : State n) (p : Fin n) (chan : Chan) (k : Nat) (after : After) :
    Except Stop (State n) :=
  if h : k < n then
    if k = p then .ok (s.goTo p (.waking chan (k + 1) after))
    else if (s.pc ⟨k, h⟩).drowses then .error .spins
    else .ok ((s.rouse ⟨k, h⟩ chan).goTo p (.waking chan (k + 1) after))
  else .ok (resume s p after)

def go (s : State n) (p : Fin n) (copy : Bool) : Except Stop (State n) :=
  match s.pc p with
  | .idle => .error .disabled
  | .writing w => .ok (pipewrite s p w copy)
  | .reading count => .ok (pipereadWait s p count)
  | .copying count i => .ok (pipereadCopy s p count i copy)
  | .waking chan k after => wakeup s p chan k after
  | .drowsy chan back =>
    .ok { s.goTo p (.sleeping chan back) with asleep := update s.asleep p true }
  | .sleeping _ back => if s.asleep p then .error .disabled else acquire s p back.resume

def called (pi : Pipe) (bytes : List Byte) (start : Nat) : Write :=
  ⟨bytes, 0, 0, start, bytes.length ≤ PIPESIZE - span pi.nread pi.nwrite⟩

def step (s : State n) : Event n → Except Stop (State n)
  | .pipewrite p bytes =>
    match s.pc p with
    | .idle => acquire s p (.writing (called s.pipe bytes s.stored.length))
    | _ => .error .disabled
  | .piperead p count =>
    match s.pc p with
    | .idle => acquire s p (.reading count)
    | _ => .error .disabled
  | .pipeclose p writable =>
    match s.pc p with
    | .idle =>
      acquire { s with pipe := s.pipe.close writable } p
        (.waking (if writable then .nread else .nwrite) 0 .closed)
    | _ => .error .disabled
  | .go p copy => go s p copy
  | .kill p =>
    if (s.pc p).drowses then .error .spins
    else .ok { s with killed := update s.killed p true, asleep := update s.asleep p false }

/-- After `pipealloc`; `data` is what `kalloc` gave. -/
def fresh (n : Nat) (data : Nat → Byte) : State n where
  pipe := ⟨data, 0, 0, true, true⟩
  lock := none
  pc := fun _ => .idle
  asleep := fun _ => false
  killed := fun _ => false
  ret := fun _ => 0
  freed := false
  stored := []
  handed := []
  finished := []

/-- The steps, with the tests that lead to them. -/
inductive Move (s : State n) : Event n → State n → Prop
  | acquires {p : Fin n} {e : Event n} {pc : Pc} (free : s.lock = none)
      (call : (s.pc p = .idle ∧ (∃ bytes, e = .pipewrite p bytes ∧
          pc = .writing (called s.pipe bytes s.stored.length))) ∨
        (s.pc p = .idle ∧ ∃ count, e = .piperead p count ∧ pc = .reading count) ∨
        ∃ copy chan back, e = .go p copy ∧ s.pc p = .sleeping chan back ∧ s.asleep p = false ∧
          pc = back.resume) :
      Move s e { s.goTo p pc with lock := some p }
  | closes {p : Fin n} {writable : Bool} (free : s.lock = none) (at_ : s.pc p = .idle) :
      Move s (.pipeclose p writable) { s.goTo p
        (.waking (if writable then .nread else .nwrite) 0 .closed) with
        pipe := s.pipe.close writable, lock := some p }
  | ends {p : Fin n} {copy : Bool} {w : Write} (at_ : s.pc p = .writing w) :
      Move s (.go p copy) (s.goTo p (.waking .nread 0 (.wrote w)))
  | gaveUp {p : Fin n} {copy : Bool} {w : Write} (at_ : s.pc p = .writing w)
      (left : w.count < w.bytes.length) (why : s.pipe.readopen = false ∨ s.killed p = true) :
      Move s (.go p copy) (s.finish p w (-1))
  | full {p : Fin n} {copy : Bool} {w : Write} (at_ : s.pc p = .writing w)
      (left : w.count < w.bytes.length) (opened : s.pipe.readopen = true) (full : s.pipe.full) :
      Move s (.go p copy) (s.goTo p (.waking .nread 0 (.sleep { w with announced := w.count })))
  | stores {p : Fin n} {copy : Bool} {w : Write} {ch : Byte} (at_ : s.pc p = .writing w)
      (byte : w.bytes[w.count]? = some ch) (opened : s.pipe.readopen = true)
      (room : ¬ s.pipe.full) :
      Move s (.go p copy) { s.goTo p (.writing { w with count := w.count + 1 }) with
        pipe := s.pipe.store ch, stored := s.stored ++ [ch] }
  | readKilled {p : Fin n} {copy : Bool} {count : Nat} (at_ : s.pc p = .reading count) :
      Move s (.go p copy) (s.leave p (-1))
  | readSleeps {p : Fin n} {copy : Bool} {count : Nat} (at_ : s.pc p = .reading count)
      (none : s.pipe.empty) (opened : s.pipe.writeopen = true) :
      Move s (.go p copy) (s.sleep p .nread (.reading count))
  | readStarts {p : Fin n} {copy : Bool} {count : Nat} (at_ : s.pc p = .reading count) :
      Move s (.go p copy) (s.goTo p (.copying count 0))
  | readEnds {p : Fin n} {copy : Bool} {count i : Nat} (at_ : s.pc p = .copying count i) :
      Move s (.go p copy) (s.goTo p (.waking .nwrite 0 (.read i)))
  | drops {p : Fin n} {count i : Nat} (at_ : s.pc p = .copying count i)
      (some : ¬ s.pipe.empty) :
      Move s (.go p false)
        { s.goTo p (.waking .nwrite 0 (.read i)) with pipe := s.pipe.remove }
  | removes {p : Fin n} {copy : Bool} {count i : Nat} (at_ : s.pc p = .copying count i)
      (some : ¬ s.pipe.empty) :
      Move s (.go p copy) { s.goTo p (.copying count (i + 1)) with
        pipe := s.pipe.remove, handed := s.handed ++ [s.pipe.front] }
  | skips {p : Fin n} {copy : Bool} {chan : Chan} {after : After}
      (at_ : s.pc p = .waking chan p after) :
      Move s (.go p copy) (s.goTo p (.waking chan (p + 1) after))
  | rouses {p k : Fin n} {copy : Bool} {chan : Chan} {after : After}
      (at_ : s.pc p = .waking chan k after) (other : k ≠ p) (unlocked : (s.pc k).drowses = false) :
      Move s (.go p copy) ((s.rouse k chan).goTo p (.waking chan (k + 1) after))
  | resumes {p : Fin n} {copy : Bool} {chan : Chan} {k : Nat} {after : After}
      (at_ : s.pc p = .waking chan k after) (past : n ≤ k) :
      Move s (.go p copy) (resume s p after)
  | falls {p : Fin n} {copy : Bool} {chan : Chan} {back : Back} (at_ : s.pc p = .drowsy chan back) :
      Move s (.go p copy)
        { s.goTo p (.sleeping chan back) with asleep := update s.asleep p true }
  | kill {p : Fin n} (unlocked : (s.pc p).drowses = false) :
      Move s (.kill p)
        { s with killed := update s.killed p true, asleep := update s.asleep p false }

theorem acquire_ok {s t : State n} {p : Fin n} {pc : Pc} (h : acquire s p pc = .ok t) :
    s.lock = none ∧ t = { s.goTo p pc with lock := some p } := by
  unfold acquire at h
  split at h
  · cases h
  · split at h
    · cases h
    · rename_i free
      cases h
      exact ⟨free, rfl⟩

theorem go_moves {s t : State n} {p : Fin n} {copy : Bool} (h : go s p copy = .ok t) :
    Move s (.go p copy) t := by
  unfold go at h
  split at h
  · cases h
  · rename_i w at_
    cases h
    unfold pipewrite
    split
    · exact .ends at_
    · rename_i ch byte
      have left : w.count < w.bytes.length := (List.getElem?_eq_some_iff.mp byte).1
      split
      · exact .gaveUp at_ left ‹_›
      · rename_i stays
        simp only [not_or, Bool.not_eq_false] at stays
        split
        · exact .full at_ left stays.1 ‹_›
        · split
          · exact .ends at_
          · exact .stores at_ byte stays.1 ‹_›
  · rename_i count at_
    cases h
    unfold pipereadWait
    split
    · rename_i waits
      split
      · exact .readKilled at_
      · exact .readSleeps at_ waits.1 waits.2
    · exact .readStarts at_
  · rename_i count i at_
    cases h
    unfold pipereadCopy
    split
    · split
      · exact .readEnds at_
      · split
        · rename_i failed
          subst failed
          exact .drops at_ ‹_›
        · exact .removes at_ ‹_›
    · exact .readEnds at_
  · rename_i chan k after at_
    unfold wakeup at h
    split at h
    · rename_i inside
      split at h
      · rename_i self
        cases h
        subst self
        exact .skips at_
      · rename_i other
        split at h
        · cases h
        · rename_i unlocked
          cases h
          have different : (⟨k, inside⟩ : Fin n) ≠ p := fun same => other (congrArg Fin.val same)
          exact .rouses (k := ⟨k, inside⟩) at_ different (by simpa using unlocked)
    · rename_i past
      cases h
      exact .resumes at_ (by omega)
  · rename_i chan back at_
    cases h
    exact .falls at_
  · rename_i chan back at_
    split at h
    · cases h
    · rename_i awake
      obtain ⟨free, rfl⟩ := acquire_ok h
      exact .acquires free (.inr (.inr ⟨copy, chan, back, rfl, at_, by simpa using awake, rfl⟩))

theorem step_moves {s t : State n} {e : Event n} (h : step s e = .ok t) : Move s e t := by
  cases e with
  | pipewrite p bytes =>
    simp only [step] at h
    split at h
    · rename_i at_
      obtain ⟨free, rfl⟩ := acquire_ok h
      exact .acquires free (.inl ⟨at_, bytes, rfl, rfl⟩)
    · cases h
  | piperead p count =>
    simp only [step] at h
    split at h
    · rename_i at_
      obtain ⟨free, rfl⟩ := acquire_ok h
      exact .acquires free (.inr (.inl ⟨at_, count, rfl, rfl⟩))
    · cases h
  | pipeclose p writable =>
    simp only [step] at h
    split at h
    · rename_i at_
      obtain ⟨free, rfl⟩ := acquire_ok h
      exact .closes free at_
    · cases h
  | go p copy => exact go_moves h
  | kill p =>
    simp only [step] at h
    split at h
    · cases h
    · rename_i unlocked
      cases h
      exact .kill (by simpa using unlocked)

/-- The process has the lock of the pipe. -/
def Pc.holds : Pc → Bool
  | .writing _ | .reading _ | .copying _ _ | .waking _ _ _ => true
  | _ => false

/-- Who works under the lock of the pipe has it. -/
def Mutual (s : State n) : Prop := Exclusive Pc.holds id s.pc s.lock

section

variable {s t : State n} {p : Fin n} {pc : Pc}

theorem mutual_step {e : Event n} (mutual_ : Mutual s) (move : Move s e t) : Mutual t := by
  cases move with
  | acquires free call => exact mutual_.take free
  | closes free at_ => exact mutual_.take free
  | ends at_ => exact mutual_.stay fun _ => by rw [at_]; rfl
  | gaveUp at_ left why => exact mutual_.give injective_id (by rw [at_]; rfl) rfl
  | full at_ left opened full => exact mutual_.stay fun _ => by rw [at_]; rfl
  | stores at_ byte opened room => exact mutual_.stay fun _ => by rw [at_]; rfl
  | readKilled at_ => exact mutual_.give injective_id (by rw [at_]; rfl) rfl
  | readSleeps at_ none opened => exact mutual_.give injective_id (by rw [at_]; rfl) rfl
  | readStarts at_ => exact mutual_.stay fun _ => by rw [at_]; rfl
  | readEnds at_ => exact mutual_.stay fun _ => by rw [at_]; rfl
  | drops at_ some => exact mutual_.stay fun _ => by rw [at_]; rfl
  | removes at_ some => exact mutual_.stay fun _ => by rw [at_]; rfl
  | skips at_ => exact mutual_.stay fun _ => by rw [at_]; rfl
  | rouses at_ other unlocked => exact mutual_.stay fun _ => by rw [at_]; rfl
  | @resumes p copy chan k after at_ past =>
    have had : (s.pc p).holds = true := by rw [at_]; rfl
    cases after with
    | sleep w => exact mutual_.give injective_id had rfl
    | wrote w => exact mutual_.give injective_id had rfl
    | read i => exact mutual_.give injective_id had rfl
    | closed => exact mutual_.give injective_id had rfl
  | falls at_ => exact mutual_.stay nofun
  | kill unlocked => exact mutual_

theorem mutual_fresh (n : Nat) (data : Nat → Byte) : Mutual (fresh n data) := by
  rintro p ⟨⟩

end

end PipeCalls
