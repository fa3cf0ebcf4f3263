import Mathlib.Logic.Function.Basic
import Xv6.Lib.ByteMemory
import Xv6.Lib.EventRuns
import Xv6.Lib.RingCounters

/-!
# The queue of the virtio disk

Any number of processes call `virtio_disk_rw`, each with a buffer of its own, the
device takes chains from the available ring and finishes them in any order, and
`virtio_disk_intr` runs at any time. The processes and the interrupt work under
`vdisk_lock`, the device does not care about it. A step is what one of them does
between two places where the others matter to it: a test of a loop, the advance of a
ring index, the lock.
-/

namespace DiskQueue

open ByteMemory EventRuns Function RingCounters

abbrev NUM : Nat := 8
def BSIZE : Nat := 1024

def VRING_DESC_F_NEXT : BitVec 16 := 1
def VRING_DESC_F_WRITE : BitVec 16 := 2
def VIRTIO_BLK_T_IN : BitVec 32 := 0
def VIRTIO_BLK_T_OUT : BitVec 32 := 1

/-- What the address of a descriptor is that of. -/
inductive Addr
  | null
  | op (i : Nat)
  | data (b : Nat)
  | status (i : Nat)
  deriving DecidableEq

/-- `struct virtq_desc`. -/
structure Desc where
  addr : Addr
  len : Nat
  flags : BitVec 16
  next : Nat
  deriving DecidableEq

/-- `struct virtio_blk_req`. -/
structure BlkReq where
  type : BitVec 32
  reserved : BitVec 32
  sector : BitVec 64

/-- A ring and the index of its writer. -/
structure VRing where
  ring : Nat → Nat
  idx : BitVec 16

structure Info where
  b : Option Nat
  status : Byte

/-- The arguments of `virtio_disk_rw`. -/
structure Call where
  b : Nat
  blockno : BitVec 32
  write : Bool
  deriving DecidableEq

/-- A call that has its descriptors. -/
structure Request where
  call : Call
  i0 : Nat
  i1 : Nat
  i2 : Nat
  /-- Ghost: the requests are numbered. -/
  number : Nat
  deriving DecidableEq

def Request.idx (q : Request) : List Nat := [q.i0, q.i1, q.i2]

/-- Where a process is. -/
inductive Pc
  | idle
  /-- At the start, or in `sleep(&disk.free[0], &disk.vdisk_lock)`. -/
  | entering (c : Call)
  | allocating (c : Call)
  /-- Before the advance of `disk.avail->idx`. -/
  | publishing (q : Request)
  /-- At the test of `b->disk`. -/
  | waiting (q : Request)
  /-- In `sleep(b, &disk.vdisk_lock)`. -/
  | sleeping (q : Request)
  deriving DecidableEq

/-- `&disk.free[0]`, or a buffer. -/
inductive Chan
  | free
  | buf (b : Nat)
  deriving DecidableEq

namespace Pc

def request : Pc → Option Request
  | publishing q | waiting q | sleeping q => some q
  | _ => none

/-- The buffer that the process has locked. -/
def buf : Pc → Option Nat
  | idle => none
  | entering c | allocating c => some c.b
  | publishing q | waiting q | sleeping q => some q.call.b

def holds : Pc → Bool
  | allocating _ | publishing _ | waiting _ => true
  | _ => false

/-- The device knows of the request. -/
def published : Pc → Bool
  | waiting _ | sleeping _ => true
  | _ => false

def sleepsOn (chan : Chan) : Pc → Bool
  | entering _ => chan = .free
  | sleeping q => chan = .buf q.call.b
  | _ => false

end Pc

inductive Holder (n : Nat)
  | proc (p : Fin n)
  | intr
  deriving DecidableEq

structure State (n : Nat) where
  free : Nat → Bool
  desc : Nat → Desc
  ops : Nat → BlkReq
  avail : VRing
  used : VRing
  /-- How far the interrupt has looked. -/
  used_idx : BitVec 16
  info : Nat → Info
  /-- `b->disk`. -/
  disk : Nat → Bool
  /-- The holder of `vdisk_lock`. -/
  lock : Option (Holder n)
  pc : Fin n → Pc
  asleep : Fin n → Bool
  /-- The device: how far it has taken chains, and those that it works on. -/
  seen : BitVec 16
  working : List Nat
  /-- Ghost: the number of requests so far, that of the last one with a head, those that the device
  has finished and those that the interrupt has processed. -/
  made : Nat
  number : Nat → Nat
  finished : List Nat
  processed : List Nat

inductive Event (n : Nat)
  /-- A call of `virtio_disk_rw`, with a buffer that the caller has locked. -/
  | rw (p : Fin n) (c : Call)
  | go (p : Fin n)
  /-- `kill` wakes up whoever sleeps, on any channel. -/
  | kill (p : Fin n)
  /-- The device takes the next chain, or finishes one. -/
  | fetch
  | finish (head : Nat)
  /-- `virtio_disk_intr` starts, or is at the test of its loop. -/
  | intr
  | round

inductive Stop
  | panic
  /-- `b` is a null pointer in the interrupt. -/
  | null
  /-- `free_chain` goes around in a circle. -/
  | endless
  | spins
  | disabled
  deriving DecidableEq

variable {n : Nat}

namespace State

def goTo (s : State n) (p : Fin n) (pc : Pc) : State n := { s with pc := update s.pc p pc }

def wakeup (s : State n) (chan : Chan) : State n :=
  { s with asleep := fun p => s.asleep p && !(s.pc p).sleepsOn chan }

/-- `sleep` on the channel of the new place gives up the lock. -/
def sleep (s : State n) (p : Fin n) (pc : Pc) : State n :=
  { s.goTo p pc with lock := none, asleep := update s.asleep p true }

end State

/-- The descriptor is marked as taken. -/
def allocDesc (s : State n) : Option (Nat × State n) :=
  ((List.range NUM).find? s.free).map fun i => (i, { s with free := update s.free i false })

/-- What `free_desc` does to a descriptor in use. -/
def freed (s : State n) (i : Nat) : State n :=
  State.wakeup { s with
    desc := update s.desc i ⟨.null, 0, 0, 0⟩, free := update s.free i true } .free

def freeDesc (s : State n) (i : Nat) : Except Stop (State n) :=
  if i ≥ NUM then .error .panic
  else if s.free i then .error .panic
  else .ok (freed s i)

def freeChain : Nat → State n → Nat → Except Stop (State n)
  | 0, _, _ => .error .endless
  | fuel + 1, s, i => do
    let flag := (s.desc i).flags
    let nxt := (s.desc i).next
    let t ← freeDesc s i
    if flag &&& VRING_DESC_F_NEXT ≠ 0 then freeChain fuel t nxt else return t

def alloc3Desc (s : State n) : Except Stop (Option (Nat × Nat × Nat) × State n) :=
  match allocDesc s with
  | none => return (none, s)
  | some (i0, s) =>
    match allocDesc s with
    | none => return (none, ← freeDesc s i0)
    | some (i1, s) =>
      match allocDesc s with
      | none => do
        let s ← freeDesc s i0
        return (none, ← freeDesc s i1)
      | some (i2, s) => return (some (i0, i1, i2), s)

/-- The three descriptors are filled in and the head goes into the available ring. -/
def format (s : State n) (q : Request) : State n :=
  { s with
    ops := update s.ops q.i0 ⟨if q.call.write then VIRTIO_BLK_T_OUT else VIRTIO_BLK_T_IN, 0,
      (q.call.blockno * BitVec.ofNat 32 (BSIZE / 512)).setWidth 64⟩
    desc := update (update (update s.desc q.i0 ⟨.op q.i0, 16, VRING_DESC_F_NEXT, q.i1⟩)
      q.i1 ⟨.data q.call.b, BSIZE,
        (if q.call.write then 0 else VRING_DESC_F_WRITE) ||| VRING_DESC_F_NEXT, q.i2⟩)
      q.i2 ⟨.status q.i0, 1, VRING_DESC_F_WRITE, 0⟩
    info := update s.info q.i0 ⟨some q.call.b, 0xff⟩
    disk := update s.disk q.call.b true
    avail := { s.avail with ring := update s.avail.ring (slot NUM s.avail.idx) q.i0 }
    made := s.made + 1
    number := update s.number q.i0 q.number }

/-- One round of the first loop of `virtio_disk_rw`. -/
def allocate (s : State n) (p : Fin n) (c : Call) : Except Stop (State n) := do
  let (idx, t) ← alloc3Desc s
  match idx with
  | none => return t.sleep p (.entering c)
  | some (i0, i1, i2) =>
    let q : Request := ⟨c, i0, i1, i2, s.made⟩
    return (format t q).goTo p (.publishing q)

/-- `disk.avail->idx += 1`. -/
def publish (s : State n) (p : Fin n) (q : Request) : State n :=
  { s.goTo p (.waiting q) with avail := { s.avail with idx := s.avail.idx + 1 } }

/-- One round of the second loop of `virtio_disk_rw`, and what follows the loop. -/
def await (s : State n) (p : Fin n) (q : Request) : Except Stop (State n) :=
  if s.disk q.call.b then .ok (s.sleep p (.sleeping q))
  else do
    let t ← freeChain (NUM + 1)
      { s with info := update s.info q.i0 { s.info q.i0 with b := none } } q.i0
    return { t.goTo p .idle with lock := none }

def acquire (s : State n) (p : Fin n) (pc : Pc) : Except Stop (State n) :=
  if s.asleep p then .error .disabled
  else match s.lock with
    | some _ => .error .spins
    | none => .ok { s.goTo p pc with lock := some (.proc p) }

def go (s : State n) (p : Fin n) : Except Stop (State n) :=
  match s.pc p with
  | .idle => .error .disabled
  | .entering c => acquire s p (.allocating c)
  | .allocating c => allocate s p c
  | .publishing q => .ok (publish s p q)
  | .waiting q => await s p q
  | .sleeping q => acquire s p (.waiting q)

/-- The device writes the status to where the third descriptor of the chain says. -/
def writeStatus (info : Nat → Info) : Addr → Nat → Info
  | .status i => update info i { info i with status := 0 }
  | _ => info

/-- The device finishes the chain with this head. -/
def finish (s : State n) (head : Nat) : State n :=
  { s with
    info := writeStatus s.info (s.desc (s.desc (s.desc head).next).next).addr
    used := ⟨update s.used.ring (slot NUM s.used.idx) head, s.used.idx + 1⟩
    working := s.working.erase head
    finished := s.finished ++ [s.number head] }

/-- One round of the loop of `virtio_disk_intr`. -/
def round (s : State n) : Except Stop (State n) :=
  if s.used_idx = s.used.idx then .ok { s with lock := none }
  else
    let id := s.used.ring (slot NUM s.used_idx)
    if (s.info id).status ≠ 0 then .error .panic
    else match (s.info id).b with
      | none => .error .null
      | some b => .ok (State.wakeup { s with
          disk := update s.disk b false
          used_idx := s.used_idx + 1
          processed := s.processed ++ [s.number id] } (.buf b))

def step (s : State n) : Event n → Except Stop (State n)
  | .rw p c =>
    if s.pc p = .idle ∧ ∀ q, (s.pc q).buf ≠ some c.b then .ok (s.goTo p (.entering c))
    else .error .disabled
  | .go p => go s p
  | .kill p => .ok { s with asleep := update s.asleep p false }
  | .fetch =>
    if s.seen = s.avail.idx then .error .disabled
    else .ok { s with
      seen := s.seen + 1, working := s.avail.ring (slot NUM s.seen) :: s.working }
  | .finish head => if head ∈ s.working then .ok (finish s head) else .error .disabled
  | .intr =>
    match s.lock with
    | some _ => .error .spins
    | none => .ok { s with lock := some .intr }
  | .round => if s.lock = some .intr then round s else .error .disabled

/-- After `virtio_disk_init`. -/
def boot (n : Nat) : State n where
  free := fun _ => true
  desc := fun _ => ⟨.null, 0, 0, 0⟩
  ops := fun _ => ⟨0, 0, 0⟩
  avail := ⟨fun _ => 0, 0⟩
  used := ⟨fun _ => 0, 0⟩
  used_idx := 0
  info := fun _ => ⟨none, 0⟩
  disk := fun _ => false
  lock := none
  pc := fun _ => .idle
  asleep := fun _ => false
  seen := 0
  working := []
  made := 0
  number := fun _ => 0
  finished := []
  processed := []

end DiskQueue
