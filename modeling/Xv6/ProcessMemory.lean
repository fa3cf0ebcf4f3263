import Mathlib.Data.List.FinRange
import Xv6.Lib.EventRuns
import Xv6.Pagetables

/-!
# The memory of processes

The parts of `proc.c` and `exec.c` that give a process its trapframe, its page
table and its pages and take them back. A process that runs, sleeps or waits to
run is `runnable` here: scheduling plays no part. A call is one event, together
with the calls of `kalloc` in it that fail although a page is free.
-/

namespace ProcessMemory
open Pagetables Function

variable {n : Nat}

inductive ProcState
  | unused | used | runnable | zombie
  deriving DecidableEq

structure Proc (n : Nat) where
  state : ProcState
  sz : Nat
  trapframe : Option Page
  pagetable : Option Pagetable
  parent : Option (Fin n)

/-- A slot without process. -/
def Proc.free : Proc n := ⟨.unused, 0, none, none, none⟩

structure State (n : Nat) where
  memory : Memory
  proc : Fin n → Proc n
  initproc : Option (Fin n)

def State.put (s : State n) (p : Fin n) (x : Proc n) (m : Memory) : State n :=
  { s with memory := m, proc := update s.proc p x }

def proc_pagetable (trampoline trapframe : Page) (m : Memory) :
    Except Panic (Option Pagetable × Memory) :=
  match uvmcreate m with
  | (none, m) => .ok (none, m)
  | (some t, m) => do
    match ← mappages t TRAMPOLINE PGSIZE trampoline ⟨true, false, true, false⟩ m with
    | (false, t, m) =>
      let m ← uvmfree t 0 m
      .ok (none, m)
    | (true, t, m) =>
      match ← mappages t TRAPFRAME PGSIZE trapframe ⟨true, true, false, false⟩ m with
      | (false, t, m) =>
        let (t, m) ← uvmunmap t TRAMPOLINE 1 false m
        let m ← uvmfree t 0 m
        .ok (none, m)
      | (true, t, m) => .ok (some t, m)

def proc_freepagetable (t : Pagetable) (sz : Nat) (m : Memory) : Except Panic Memory := do
  let (t, m) ← uvmunmap t TRAMPOLINE 1 false m
  let (t, m) ← uvmunmap t TRAPFRAME 1 false m
  uvmfree t sz m

/-- The two parts of `freeproc` that give pages back. -/
def freeTrapframe (x : Proc n) (m : Memory) : Except Panic Memory :=
  match x.trapframe with
  | some trapframe => kfree trapframe m
  | none => .ok m

def freeTable (x : Proc n) (m : Memory) : Except Panic Memory :=
  match x.pagetable with
  | some t => proc_freepagetable t x.sz m
  | none => .ok m

def freeproc (x : Proc n) (m : Memory) : Except Panic (Proc n × Memory) := do
  let m ← freeTrapframe x m
  let m ← freeTable x m
  .ok (.free, m)

/-- `allocproc` once it has found a slot, and whether it succeeds. -/
def found (trampoline : Page) (x : Proc n) (m : Memory) :
    Except Panic (Bool × Proc n × Memory) :=
  let x := { x with state := .used }
  match kalloc m with
  | (none, m) => do
    let (x, m) ← freeproc { x with trapframe := none } m
    .ok (false, x, m)
  | (some trapframe, m) => do
    let x := { x with trapframe := some trapframe }
    match ← proc_pagetable trampoline trapframe m with
    | (none, m) =>
      let (x, m) ← freeproc { x with pagetable := none } m
      .ok (false, x, m)
    | (some t, m) => .ok (true, { x with pagetable := some t }, m)

def allocproc (trampoline : Page) (s : State n) : Except Panic (Option (Fin n) × State n) :=
  match (List.finRange n).find? fun p => (s.proc p).state = .unused with
  | none => .ok (none, s)
  | some p => do
    let (ok, x, m) ← found trampoline (s.proc p) s.memory
    .ok (if ok then some p else none, s.put p x m)

/-- The child, if there is one. -/
def fork (trampoline : Page) (s : State n) (p : Fin n) :
    Except Panic (Option (Fin n) × State n) := do
  match ← allocproc trampoline s with
  | (none, s) => .ok (none, s)
  | (some np, s) =>
    match (s.proc p).pagetable, (s.proc np).pagetable with
    | some old, some new =>
      match ← uvmcopy old new (s.proc p).sz s.memory with
      | (false, new, m) =>
        let (x, m) ← freeproc { s.proc np with pagetable := some new } m
        .ok (none, s.put np x m)
      | (true, new, m) =>
        .ok (some np, s.put np { s.proc np with
          pagetable := some new, sz := (s.proc p).sz, parent := some p, state := .runnable } m)
    | _, _ => .ok (none, s)

/-- The sum of a size and an `int`, as a `uint64`. -/
def grown (sz : Nat) (k : BitVec 32) : Nat := (((sz : Int) + k.toInt) % 2 ^ 64).toNat

def growproc (x : Proc n) (k : BitVec 32) (m : Memory) : Except Panic (Int × Proc n × Memory) :=
  match x.pagetable with
  | none => .ok (-1, x, m)
  | some t =>
    if 0 < k.toInt then do
      let (sz, t, m) ← uvmalloc t x.sz (grown x.sz k) ⟨false, true, false, false⟩ m
      if sz = 0 then .ok (-1, { x with pagetable := some t }, m)
      else .ok (0, { x with pagetable := some t, sz := sz }, m)
    else if k.toInt < 0 then do
      let (sz, t, m) ← uvmdealloc t x.sz (grown x.sz k) m
      .ok (0, { x with pagetable := some t, sz := sz }, m)
    else .ok (0, x, m)

/-- Children go to the first process. -/
def reparent (s : State n) (p : Fin n) : State n :=
  { s with proc := fun j =>
    if (s.proc j).parent = some p then { s.proc j with parent := s.initproc } else s.proc j }

def exit (s : State n) (p : Fin n) : Except Panic (State n) :=
  if s.initproc = some p then .error .initExiting
  else
    let s := reparent s p
    .ok (s.put p { s.proc p with state := .zombie } s.memory)

/-- The child that was freed, if one was; `copied` is whether its status reaches the user. -/
def wait (s : State n) (p : Fin n) (copied : Bool) : Except Panic (Option (Fin n) × State n) :=
  match (List.finRange n).find? fun pp =>
    (s.proc pp).parent = some p ∧ (s.proc pp).state = .zombie with
  | none => .ok (none, s)
  | some pp =>
    if copied then do
      let (x, m) ← freeproc (s.proc pp) s.memory
      .ok (some pp, s.put pp x m)
    else .ok (none, s)

/-- A program header: whether it can be read, whether it is to be loaded, its fields, and
whether `loadseg` reads the segment. -/
structure Segment where
  read : Bool
  load : Bool
  filesz : BitVec 64
  memsz : BitVec 64
  vaddr : BitVec 64
  flags : BitVec 32
  loaded : Bool

/-- What the file of an `exec` gives: whether it can be opened and has an ELF header, its
program headers, and whether the arguments fit on the stack. -/
structure Image where
  opened : Bool
  segments : List Segment
  pushed : Bool

def flags2perm (flags : BitVec 32) : Perm := ⟨false, flags.getLsbD 1, flags.getLsbD 0, false⟩

/-- The loop over the program headers; the result says whether it goes through. -/
def loadLoop : List Segment → Nat → Pagetable → Memory →
    Except Panic (Bool × Nat × Pagetable × Memory)
  | [], sz, t, m => .ok (true, sz, t, m)
  | ph :: rest, sz, t, m =>
    if ¬ ph.read then .ok (false, sz, t, m)
    else if ¬ ph.load then loadLoop rest sz t m
    else if ph.memsz < ph.filesz ∨ ph.vaddr + ph.memsz < ph.vaddr ∨
        ph.vaddr.toNat % PGSIZE ≠ 0 then .ok (false, sz, t, m)
    else do
      let (sz1, t, m) ← uvmalloc t sz (ph.vaddr + ph.memsz).toNat (flags2perm ph.flags) m
      if sz1 = 0 then .ok (false, sz, t, m)
      else if ¬ ph.loaded then .ok (false, sz1, t, m)
      else loadLoop rest sz1 t m

/-- `bad:` of `exec`. -/
def execBad (x : Proc n) (t : Pagetable) (sz : Nat) (m : Memory) :
    Except Panic (Bool × Proc n × Memory) := do
  let m ← proc_freepagetable t sz m
  .ok (false, x, m)

/-- Whether the process has the new image. -/
def exec (trampoline : Page) (x : Proc n) (image : Image) (m : Memory) :
    Except Panic (Bool × Proc n × Memory) :=
  match x.trapframe, x.pagetable with
  | some trapframe, some oldpagetable =>
    if ¬ image.opened then .ok (false, x, m)
    else do
      match ← proc_pagetable trampoline trapframe m with
      | (none, m) => .ok (false, x, m)
      | (some t, m) =>
        match ← loadLoop image.segments 0 t m with
        | (false, sz, t, m) => execBad x t sz m
        | (true, sz, t, m) =>
          let sz := PGROUNDUP sz
          let (sz1, t, m) ← uvmalloc t sz ((sz + 2 * PGSIZE) % 2 ^ 64) ⟨false, true, false, false⟩ m
          if sz1 = 0 then execBad x t sz m
          else
            let (t, m) ← uvmclear t (sz1 - 2 * PGSIZE) m
            if ¬ image.pushed then execBad x t sz1 m
            else
              let m ← proc_freepagetable oldpagetable x.sz m
              .ok (true, { x with pagetable := some t, sz := sz1 }, m)
  | _, _ => .ok (false, x, m)

inductive Call (n : Nat)
  | fork (p : Fin n)
  | exec (p : Fin n) (image : Image)
  | growproc (p : Fin n) (k : BitVec 32)
  | exit (p : Fin n)
  | wait (p : Fin n) (copied : Bool)

def Call.caller : Call n → Fin n
  | fork p | exec p _ | growproc p _ | exit p | wait p _ => p

def perform (trampoline : Page) (s : State n) : Call n → Except Panic (State n)
  | .fork p => do
    let (_, s) ← fork trampoline s p
    .ok s
  | .exec p image => do
    let (_, x, m) ← exec trampoline (s.proc p) image s.memory
    .ok (s.put p x m)
  | .growproc p k => do
    let (_, x, m) ← growproc (s.proc p) k s.memory
    .ok (s.put p x m)
  | .exit p => exit s p
  | .wait p copied => do
    let (_, s) ← wait s p copied
    .ok s

structure Event (n : Nat) where
  call : Call n
  fails : Nat → Bool

def State.failing (s : State n) (fails : Nat → Bool) : State n :=
  { s with memory := { s.memory with fails, calls := 0 } }

/-- A call of a process that is there; other events do nothing. -/
def step (trampoline : Page) (s : State n) (e : Event n) : Except Panic (State n) :=
  if (s.proc e.call.caller).state = .runnable then
    perform trampoline (s.failing e.fails) e.call
  else .ok s

/-- The loop of `freerange`, from page `p` on. -/
def freeLoop (paEnd : Nat) : Nat → Nat → Memory → Except Panic Memory
  | 0, _, m => .ok m
  | rounds + 1, p, m =>
    if p + PGSIZE ≤ paEnd then do
      let m ← kfree p m
      freeLoop paEnd rounds (p + PGSIZE) m
    else .ok m

def freerange (paStart paEnd : Nat) (m : Memory) : Except Panic Memory :=
  let p := PGROUNDUP paStart
  freeLoop paEnd ((paEnd - p) / PGSIZE + 1) p m

def kinit (kernelEnd : Nat) : Except Panic Memory :=
  freerange kernelEnd PHYSTOP ⟨[], kernelEnd, fun _ => false, 0⟩

/-- What the kernel leaves to the processes: the first pages that it takes after `kinit` are
its page table, its stacks and the rings of the disk. -/
def boot (kernelEnd kept : Nat) : Except Panic Memory := do
  let m ← kinit kernelEnd
  .ok { m with freelist := m.freelist.drop kept }

/-- The page of the first program; none if there is no memory for it. -/
def uvmfirst (t : Pagetable) (m : Memory) : Except Panic (Option (Pagetable × Memory)) :=
  match kalloc m with
  | (none, _) => .ok none
  | (some mem, m) => do
    match ← mappages t 0 PGSIZE mem ⟨true, true, true, true⟩ m with
    | (false, _, _) => .ok none
    | (true, t, m) => .ok (some (t, m))

/-- The state with the first process; none if there is no memory for it. -/
def userinit (trampoline : Page) (m : Memory) : Except Panic (Option (State n)) := do
  match ← allocproc trampoline ⟨m, fun _ => .free, none⟩ with
  | (none, _) => .ok none
  | (some p, s) =>
    match (s.proc p).pagetable with
    | none => .ok none
    | some t =>
      match ← uvmfirst t s.memory with
      | none => .ok none
      | some (t, m) =>
        let s := s.put p { s.proc p with
          pagetable := some t, sz := PGSIZE, state := .runnable } m
        .ok (some { s with initproc := some p })

end ProcessMemory
