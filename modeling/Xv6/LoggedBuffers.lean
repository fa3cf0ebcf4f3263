import Xv6.CacheCoherence
import Xv6.LogCommits

/-!
# Transactions over the buffer cache

The log and the buffer cache as one system. Operations read, change, log and
release buffers; `commit` is the code of `write_log`, `write_head` and
`install_trans`, one call of the buffer cache a step, so that any other process
may run between two of them. A step on the log alone, or on the cache alone, is
a step of the machine for that part.

`recover_from_log` pins nothing and is over before the first operation begins,
so a run starts from any coherent cache without pins.
-/

namespace LoggedBuffers
open EventRuns LogFormat Function

/-- The two buffers that a round of `commit` uses: `to`, `lbuf` or `buf`, and
`from` or `dbuf`. -/
inductive Reg
  | lbuf
  | dbuf
  deriving DecidableEq

/-- The block that a round reads: a block of the log, the home of the block
logged there, or the header. -/
inductive Target
  | log (tail : Nat)
  | home (tail : Nat)
  | head
  deriving DecidableEq

inductive Instr
  | bread (r : Reg) (block : Target)
  | memmove (dst src : Reg)
  | putHead (r : Reg)
  | bwrite (r : Reg)
  | bunpin (r : Reg)
  | brelse (r : Reg)
  deriving DecidableEq

/-- One round of the loop of `write_log`. -/
def logRound (tail : Nat) : List Instr :=
  [.bread .lbuf (.log tail), .bread .dbuf (.home tail), .memmove .lbuf .dbuf, .bwrite .lbuf,
    .brelse .dbuf, .brelse .lbuf]

def writeHead : List Instr := [.bread .lbuf .head, .putHead .lbuf, .bwrite .lbuf, .brelse .lbuf]

/-- One round of the loop of `install_trans(0)`. -/
def installRound (tail : Nat) : List Instr :=
  [.bread .lbuf (.log tail), .bread .dbuf (.home tail), .memmove .dbuf .lbuf, .bwrite .dbuf,
    .bunpin .dbuf, .brelse .lbuf, .brelse .dbuf]

/-- What `commit` does with buffers before it goes on in the log. -/
def script (n : Nat) : LogOperations.Phase → Option (List Instr)
  | .writeLog tail => if tail < n then some (logRound tail) else none
  | .writeHead | .erase => some writeHead
  | .installTrans tail => if tail < n then some (installRound tail) else none
  | _ => none

/-- How far a process that commits has come with its script, and its local
variables. -/
structure Work where
  todo : Option (List Instr)
  reg : Reg → BufferCache.Use

structure State (Proc : Type) where
  log : LogOperations.Log Proc
  cache : BufferCache.Cache Proc Block
  work : Proc → Work
  /-- Ghost: the contents last put in the buffer of a block of the log's device
  since it was first logged. -/
  latest : BlockNo → Block
  /-- Ghost: the logged blocks whose `bpin` no `bunpin` has undone. -/
  pinned : List BlockNo
  /-- Ghost: the calls of `bpin` and of `bunpin` on each buffer. -/
  bpins : Fin BufferCache.NBUF → Nat
  bunpins : Fin BufferCache.NBUF → Nat

inductive Fault
  | log (f : LogOperations.Fault)
  | cache (f : BufferCache.Fault)
  | disabled
  deriving DecidableEq

/-- `call` is a step of the cache that an operation makes. -/
inductive Event (Proc : Type)
  | beginOp (p : Proc)
  | wakes (p : Proc)
  | endOp (p : Proc)
  | bread (p : Proc) (dev : BitVec 32) (blockno : BlockNo)
  | change (p : Proc) (u : BufferCache.Use) (data : Block)
  | logWrite (p : Proc) (u : BufferCache.Use)
  | brelse (p : Proc) (u : BufferCache.Use)
  | acquire (p : Proc)
  | read (p : Proc)
  | drop (p : Proc)
  | commit (p : Proc)
  | kill (p : Proc)

variable {Proc : Type} [DecidableEq Proc]

def onLog (s : State Proc) (e : LogOperations.Event Proc) : Except Fault (State Proc) :=
  match LogOperations.step s.log e with
  | .ok log => .ok { s with log := log }
  | .error f => .error (.log f)

def onCache (s : State Proc) (e : BufferCache.Event Proc Block) : Except Fault (State Proc) :=
  match BufferCache.step s.cache e with
  | .ok cache => .ok { s with cache := cache }
  | .error f => .error (.cache f)

def blockAt (s : State Proc) (u : BufferCache.Use) : BlockNo := (s.cache.buf u.buf).blockno

def dataAt (s : State Proc) (u : BufferCache.Use) : Block := (s.cache.buf u.buf).data

def put (dev : BitVec 32) (s : State Proc) (p : Proc) (u : BufferCache.Use) (data : Block) :
    Except Fault (State Proc) := do
  let t ← onCache s (.change p u data)
  if (s.cache.buf u.buf).dev = dev then
    pure { t with latest := update t.latest (blockAt s u) data }
  else pure t

/-- `log_write`: a block that is new in the log is pinned. -/
def logWrite (s : State Proc) (p : Proc) (u : BufferCache.Use) : Except Fault (State Proc) := do
  let t ← onLog s (.logWrite p (blockAt s u))
  if s.log.lh.idxOf (blockAt s u) = s.log.lh.length then
    let t ← onCache t (.bpin p u.buf)
    pure { t with
      latest := update t.latest (blockAt s u) (dataAt s u)
      pinned := t.pinned ++ [blockAt s u]
      bpins := update t.bpins u.buf (t.bpins u.buf + 1) }
  else pure t

/-- The number of the block to read; `start` is `log.start`. -/
def Target.blockno (start : BlockNo) (lh : List BlockNo) : Target → BlockNo
  | .log tail => logBlock start tail
  | .home tail => lh.getD tail 0
  | .head => start

def State.setReg (s : State Proc) (p : Proc) (r : Reg) (u : BufferCache.Use) : State Proc :=
  { s with work := update s.work p { s.work p with reg := update (s.work p).reg r u } }

def State.setTodo (s : State Proc) (p : Proc) (todo : Option (List Instr)) : State Proc :=
  { s with work := update s.work p { s.work p with todo := todo } }

/-- `bread`, as far as the sleep lock, for a local variable. -/
def breadTo (s : State Proc) (p : Proc) (r : Reg) (dev : BitVec 32) (blockno : BlockNo) :
    Except Fault (State Proc) := do
  let t ← onCache s (.bread p dev blockno)
  match (t.cache.user p).place with
  | .locking u => pure (t.setReg p r u)
  | _ => .error .disabled

def perform (dev : BitVec 32) (start : BlockNo) (s : State Proc) (p : Proc) :
    Instr → Except Fault (State Proc)
  | .bread r block => breadTo s p r dev (block.blockno start s.log.lh)
  | .memmove dst src => put dev s p ((s.work p).reg dst) (dataAt s ((s.work p).reg src))
  | .putHead r =>
    put dev s p ((s.work p).reg r) (storeHeader s.log.lh (dataAt s ((s.work p).reg r)))
  | .bwrite r => onCache s (.bwrite p ((s.work p).reg r))
  | .bunpin r => do
    let b := ((s.work p).reg r).buf
    let t ← onCache s (.bunpin p b)
    pure { t with
      pinned := t.pinned.erase (s.cache.buf b).blockno
      bunpins := update t.bunpins b (t.bunpins b + 1) }
  | .brelse r => onCache s (.brelse p ((s.work p).reg r))

/-- The process that commits goes on: the next call of its script, the next
script, or the next step in the log. -/
def commitStep (dev : BitVec 32) (start : BlockNo) (s : State Proc) (p : Proc)
    (phase : LogOperations.Phase) : Except Fault (State Proc) :=
  match (s.work p).todo with
  | some (i :: rest) => do
    let t ← perform dev start s p i
    pure (t.setTodo p (some rest))
  | some [] => do
    let t ← onLog s (.commit p)
    pure (t.setTodo p none)
  | none =>
    match script s.log.lh.length phase with
    | some is => pure (s.setTodo p (some is))
    | none => onLog s (.commit p)

/-- Neither asleep in `begin_op` nor in `commit`. -/
def calls : LogOperations.Place → Bool
  | .outside | .inside _ _ => true
  | _ => false

def step (dev : BitVec 32) (start : BlockNo) (s : State Proc) :
    Event Proc → Except Fault (State Proc)
  | .beginOp p => if (s.cache.user p).place = .running then onLog s (.beginOp p)
    else .error .disabled
  | .wakes p => onLog s (.wakes p)
  | .endOp p => if (s.cache.user p).place = .running then onLog s (.endOp p)
    else .error .disabled
  | .bread p d blockno => if calls (s.log.place p) then onCache s (.bread p d blockno)
    else .error .disabled
  | .change p u data => if calls (s.log.place p) then put dev s p u data else .error .disabled
  | .logWrite p u => if (s.cache.user p).place = .running then logWrite s p u
    else .error .disabled
  | .brelse p u => if calls (s.log.place p) then onCache s (.brelse p u) else .error .disabled
  | .acquire p => onCache s (.acquire p)
  | .read p => onCache s (.read p)
  | .drop p => onCache s (.drop p)
  | .commit p => match s.log.place p with
    | .commit phase =>
      if (s.cache.user p).place = .running then commitStep dev start s p phase
      else .error .disabled
    | _ => .error .disabled
  | .kill p => do
    let t ← onLog s (.kill p)
    onCache t (.kill p)

/-- What operations see to: the device is not 0, only the process that has a
buffer locked changes, logs or releases it, and what is logged is on the device
of the log. -/
def Proper (dev : BitVec 32) (s : State Proc) : Event Proc → Prop
  | .bread _ d _ => d ≠ 0
  | .change p u _ | .brelse p u => u ∈ (s.cache.user p).held
  | .logWrite p u => u ∈ (s.cache.user p).held ∧ u.dev = dev
  | _ => True

instance decidableProper (dev : BitVec 32) (s : State Proc) (e : Event Proc) :
    Decidable (Proper dev s e) := by
  unfold Proper
  split <;> infer_instance

end LoggedBuffers
