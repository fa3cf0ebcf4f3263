import Xv6.Lib.EventRuns
import Xv6.Lib.Outcomes
import Xv6.Lib.Rings
import Xv6.Lib.Updates
import Xv6.LogFormat

/-!
# The buffer cache

The `NBUF` buffers, the ring through them in order of use, and the calls that
processes make. Each step is one critical section of `bcache.lock` or of the
spinlock inside a buffer's sleep lock, or what a process does while it holds a
buffer locked. So `bget` is in two steps, the second of which is repeated by
the loop of `acquiresleep`, and `brelse` is in two. A wakeup is part of the
critical section that makes it.

A process is named by its pid. What is asked for and held is ghost state: each
`Use` is a call of `bread` that `brelse` has not yet undone.
-/

namespace BufferCache
open EventRuns LogFormat Rings Function

abbrev NBUF : Nat := 30

/-- A `struct sleeplock`: no pid is 0. -/
structure SleepLock (Proc : Type) where
  locked : Bool
  pid : Option Proc

structure Buf (Proc Data : Type) where
  /-- The data has been read from the disk. -/
  valid : Bool
  dev : BitVec 32
  blockno : BlockNo
  lock : SleepLock Proc
  refcnt : BitVec 32
  data : Data

/-- The buffer found for a block that a process has asked for. -/
structure Use where
  buf : Fin NBUF
  dev : BitVec 32
  blockno : BlockNo
  deriving DecidableEq

/-- Where a process is: outside these functions, in `acquiresleep` about to
test the lock or asleep on it, in `bread` with the lock, or in `brelse` after
giving up the lock. -/
inductive Place
  | running
  | locking (u : Use)
  | asleep (u : Use)
  | reading (u : Use)
  | releasing (u : Use)
  deriving DecidableEq

structure User where
  place : Place
  /-- Ghost: the uses whose buffer the process has locked. -/
  held : List Use
  deriving DecidableEq

inductive Fault
  | noBuffers -- "bget: no buffers"
  | bwrite    -- "bwrite"
  | brelse    -- "brelse"
  | endless   -- a search that does not come back to the head
  | disabled  -- not what the process does next
  deriving DecidableEq

structure Cache (Proc Data : Type) where
  buf : Fin NBUF → Buf Proc Data
  /-- `prev` and `next` of the buffers and of `bcache.head`, which is `none`. -/
  links : Links (Option (Fin NBUF))
  /-- The driver does not look at the device. -/
  disk : BlockNo → Data
  user : Proc → User
  /-- Ghost: calls of `bpin` less calls of `bunpin`. -/
  pins : Fin NBUF → Nat

inductive Event (Proc Data : Type)
  | bread (p : Proc) (dev : BitVec 32) (blockno : BlockNo)
  | acquire (p : Proc)
  | read (p : Proc)
  | change (p : Proc) (u : Use) (data : Data)
  | bwrite (p : Proc) (u : Use)
  | brelse (p : Proc) (u : Use)
  | drop (p : Proc)
  | bpin (p : Proc) (b : Fin NBUF)
  | bunpin (p : Proc) (b : Fin NBUF)
  | kill (p : Proc)
  deriving DecidableEq

variable {Proc Data : Type}

/-- Create the linked list of all buffers, over whatever the links were. -/
def binit (r : Links (Option (Fin NBUF))) : Links (Option (Fin NBUF)) :=
  let r := { r with prev := update r.prev none none }
  let r := { r with next := update r.next none none }
  (List.finRange NBUF).foldl (fun r b => r.push none (some b)) r

/-- The cache after `binit`. -/
def fresh (links : Links (Option (Fin NBUF))) (data : Data) (disk : BlockNo → Data) :
    Cache Proc Data where
  buf := fun _ => ⟨false, 0, 0, ⟨false, none⟩, 0, data⟩
  links := binit links
  disk := disk
  user := fun _ => ⟨.running, []⟩
  pins := fun _ => 0

namespace Cache

def setBuf (s : Cache Proc Data) (b : Fin NBUF) (new : Buf Proc Data) : Cache Proc Data :=
  { s with buf := update s.buf b new }

def setRefcnt (s : Cache Proc Data) (b : Fin NBUF) (n : BitVec 32) : Cache Proc Data :=
  s.setBuf b { s.buf b with refcnt := n }

def setLock (s : Cache Proc Data) (b : Fin NBUF) (lock : SleepLock Proc) : Cache Proc Data :=
  s.setBuf b { s.buf b with lock := lock }

def setUser [DecidableEq Proc] (s : Cache Proc Data) (p : Proc) (new : User) : Cache Proc Data :=
  { s with user := update s.user p new }

def goTo [DecidableEq Proc] (s : Cache Proc Data) (p : Proc) (there : Place) : Cache Proc Data :=
  s.setUser p { s.user p with place := there }

end Cache

/-- Is the block cached here? -/
def caches (s : Cache Proc Data) (dev : BitVec 32) (blockno : BlockNo) (b : Fin NBUF) : Bool :=
  (s.buf b).dev = dev ∧ (s.buf b).blockno = blockno

def unused (s : Cache Proc Data) (b : Fin NBUF) : Bool := (s.buf b).refcnt = 0

/-- A buffer for another block. -/
def recycle (s : Cache Proc Data) (b : Fin NBUF) (dev : BitVec 32) (blockno : BlockNo) :
    Cache Proc Data :=
  s.setBuf b { s.buf b with dev := dev, blockno := blockno, valid := false, refcnt := 1 }

/-- `bget` as far as the sleep lock: look through the cache from the most
recently used buffer, and then for an unused one from the least recently used. -/
def bget (s : Cache Proc Data) (dev : BitVec 32) (blockno : BlockNo) :
    Except Fault (Fin NBUF × Cache Proc Data) :=
  match search s.links.next (caches s dev blockno) (NBUF + 1) (s.links.next none) with
  | none => .error .endless
  | some (some b) => .ok (b, s.setRefcnt b ((s.buf b).refcnt + 1))
  | some none =>
    match search s.links.prev (unused s) (NBUF + 1) (s.links.prev none) with
    | none => .error .endless
    | some (some b) => .ok (b, recycle s b dev blockno)
    | some none => .error .noBuffers

variable [DecidableEq Proc]

/-- One round of the loop of `acquiresleep`. -/
def acquiresleep (s : Cache Proc Data) (p : Proc) (u : Use) : Cache Proc Data :=
  if (s.buf u.buf).lock.locked then s.goTo p (.asleep u)
  else (s.setLock u.buf ⟨true, some p⟩).setUser p ⟨.reading u, u :: (s.user p).held⟩

/-- `wakeup(lk)` for the sleep lock of a buffer. -/
def Place.wake (b : Fin NBUF) : Place → Place
  | .asleep u => if u.buf = b then .locking u else .asleep u
  | there => there

def User.wake (b : Fin NBUF) (w : User) : User := { w with place := w.place.wake b }

def holdingsleep (s : Cache Proc Data) (p : Proc) (b : Fin NBUF) : Prop :=
  (s.buf b).lock.locked = true ∧ (s.buf b).lock.pid = some p

instance decidableHoldingsleep (s : Cache Proc Data) (p : Proc) (b : Fin NBUF) :
    Decidable (holdingsleep s p b) := by
  unfold holdingsleep
  infer_instance

/-- `releasesleep`, and the process goes on in `brelse`. -/
def releasesleep (s : Cache Proc Data) (p : Proc) (u : Use) : Cache Proc Data :=
  let s := s.setLock u.buf ⟨false, none⟩
  let s := { s with user := fun q => (s.user q).wake u.buf }
  s.setUser p ⟨.releasing u, (s.user p).held.erase u⟩

/-- What `bread` does with the buffer locked. -/
def fill (s : Cache Proc Data) (b : Fin NBUF) : Cache Proc Data :=
  if (s.buf b).valid then s
  else s.setBuf b { s.buf b with data := s.disk (s.buf b).blockno, valid := true }

/-- The critical section at the end of `brelse`. -/
def dropRef (s : Cache Proc Data) (b : Fin NBUF) : Cache Proc Data :=
  let s := s.setRefcnt b ((s.buf b).refcnt - 1)
  if (s.buf b).refcnt = 0 then { s with links := (s.links.detach (some b)).push none (some b) }
  else s

def step (s : Cache Proc Data) : Event Proc Data → Except Fault (Cache Proc Data)
  | .bread p dev blockno => match (s.user p).place with
    | .running => do
      let (b, s) ← bget s dev blockno
      pure (s.goTo p (.locking ⟨b, dev, blockno⟩))
    | _ => .error .disabled
  | .acquire p => match (s.user p).place with
    | .locking u => .ok (acquiresleep s p u)
    | _ => .error .disabled
  | .read p => match (s.user p).place with
    | .reading u => .ok ((fill s u.buf).goTo p .running)
    | _ => .error .disabled
  | .change p u data => match (s.user p).place with
    | .running => .ok (s.setBuf u.buf { s.buf u.buf with data := data })
    | _ => .error .disabled
  | .bwrite p u => match (s.user p).place with
    | .running =>
      if holdingsleep s p u.buf then
        .ok { s with disk := update s.disk (s.buf u.buf).blockno (s.buf u.buf).data }
      else .error .bwrite
    | _ => .error .disabled
  | .brelse p u => match (s.user p).place with
    | .running => if holdingsleep s p u.buf then .ok (releasesleep s p u) else .error .brelse
    | _ => .error .disabled
  | .drop p => match (s.user p).place with
    | .releasing u => .ok ((dropRef s u.buf).goTo p .running)
    | _ => .error .disabled
  | .bpin p b => match (s.user p).place with
    | .running => .ok
      { s.setRefcnt b ((s.buf b).refcnt + 1) with pins := update s.pins b (s.pins b + 1) }
    | _ => .error .disabled
  | .bunpin p b => match (s.user p).place with
    | .running => .ok
      { s.setRefcnt b ((s.buf b).refcnt - 1) with pins := update s.pins b (s.pins b - 1) }
    | _ => .error .disabled
  | .kill p => match (s.user p).place with
    | .asleep u => .ok (s.goTo p (.locking u))
    | _ => .ok s

/-- What the callers see to: the device is not 0, only the process that has a
buffer locked changes, writes or releases it, and every `bunpin` undoes a
`bpin`. -/
def Proper (s : Cache Proc Data) : Event Proc Data → Prop
  | .bread _ dev _ => dev ≠ 0
  | .change p u _ | .bwrite p u | .brelse p u => u ∈ (s.user p).held
  | .bpin _ b => (s.buf b).dev ≠ 0
  | .bunpin _ b => s.pins b ≠ 0
  | _ => True

instance decidableProper (s : Cache Proc Data) (e : Event Proc Data) : Decidable (Proper s e) := by
  unfold Proper
  split <;> infer_instance

/-- The ring has each buffer once. -/
def Ringed (s : Cache Proc Data) : Prop :=
  ∃ l : List (Fin NBUF), Lists s.links none (l.map some) ∧ l.Perm (List.finRange NBUF)

/-- The steps that do not fault, with their guards. -/
inductive Moves (s : Cache Proc Data) : Event Proc Data → Cache Proc Data → Prop
  | hits (p : Proc) (dev : BitVec 32) (blockno : BlockNo) (b : Fin NBUF)
      (here : (s.user p).place = .running) (hit : caches s dev blockno b = true) :
      Moves s (.bread p dev blockno)
        ((s.setRefcnt b ((s.buf b).refcnt + 1)).goTo p (.locking ⟨b, dev, blockno⟩))
  | recycles (p : Proc) (dev : BitVec 32) (blockno : BlockNo) (b : Fin NBUF)
      (here : (s.user p).place = .running) (miss : ∀ c, caches s dev blockno c = false)
      (free : (s.buf b).refcnt = 0) :
      Moves s (.bread p dev blockno)
        ((recycle s b dev blockno).goTo p (.locking ⟨b, dev, blockno⟩))
  | waits (p : Proc) (u : Use) (here : (s.user p).place = .locking u) :
      Moves s (.acquire p) (s.goTo p (.asleep u))
  | locks (p : Proc) (u : Use) (here : (s.user p).place = .locking u)
      (free : (s.buf u.buf).lock.locked = false) : Moves s (.acquire p)
        ((s.setLock u.buf ⟨true, some p⟩).setUser p ⟨.reading u, u :: (s.user p).held⟩)
  | reads (p : Proc) (u : Use) (here : (s.user p).place = .reading u) :
      Moves s (.read p) ((fill s u.buf).goTo p .running)
  | changes (p : Proc) (u : Use) (data : Data) (here : (s.user p).place = .running) :
      Moves s (.change p u data) (s.setBuf u.buf { s.buf u.buf with data := data })
  | writes (p : Proc) (u : Use) (here : (s.user p).place = .running) :
      Moves s (.bwrite p u)
        { s with disk := update s.disk (s.buf u.buf).blockno (s.buf u.buf).data }
  | releases (p : Proc) (u : Use) (here : (s.user p).place = .running) :
      Moves s (.brelse p u) (releasesleep s p u)
  | drops (p : Proc) (u : Use) (here : (s.user p).place = .releasing u) :
      Moves s (.drop p) ((dropRef s u.buf).goTo p .running)
  | pins (p : Proc) (b : Fin NBUF) : Moves s (.bpin p b)
      { s.setRefcnt b ((s.buf b).refcnt + 1) with pins := update s.pins b (s.pins b + 1) }
  | unpins (p : Proc) (b : Fin NBUF) : Moves s (.bunpin p b)
      { s.setRefcnt b ((s.buf b).refcnt - 1) with pins := update s.pins b (s.pins b - 1) }
  | killed (p : Proc) (u : Use) (here : (s.user p).place = .asleep u) :
      Moves s (.kill p) (s.goTo p (.locking u))
  | nothing (p : Proc) : Moves s (.kill p) s

variable {s t : Cache Proc Data} {e : Event Proc Data} {p : Proc} {b : Fin NBUF} {f : Fault}
  {dev : BitVec 32} {blockno : BlockNo}

omit [DecidableEq Proc] in
theorem Ringed.searches (ring : Ringed s) : ∃ l : List (Fin NBUF), (∀ b, b ∈ l) ∧
    ∀ test : Fin NBUF → Bool,
      search s.links.next test (NBUF + 1) (s.links.next none) = some (l.find? test) ∧
      search s.links.prev test (NBUF + 1) (s.links.prev none) = some (l.reverse.find? test) := by
  obtain ⟨l, lists, all⟩ := ring
  have enough : l.length < NBUF + 1 := by simp [all.length_eq]
  have member : ∀ b, b ∈ l := fun b => all.mem_iff.mpr (List.mem_finRange b)
  exact ⟨l, member, fun test => ⟨lists.search_next enough, lists.search_prev enough⟩⟩

omit [DecidableEq Proc] in
/-- What `bget` finds: the block, or an unused buffer if the block is nowhere. -/
theorem bget_ok (ring : Ringed s) (h : bget s dev blockno = .ok (b, t)) :
    (caches s dev blockno b = true ∧ t = s.setRefcnt b ((s.buf b).refcnt + 1)) ∨
      ((∀ c, caches s dev blockno c = false) ∧ (s.buf b).refcnt = 0 ∧
        t = recycle s b dev blockno) := by
  obtain ⟨l, member, searches⟩ := ring.searches
  unfold bget at h
  rw [(searches _).1, (searches _).2] at h
  cases found : l.find? (caches s dev blockno) with
  | some c =>
    simp only [found, Except.ok.injEq, Prod.mk.injEq] at h
    obtain ⟨rfl, rfl⟩ := h
    exact Or.inl ⟨List.find?_some found, rfl⟩
  | none =>
    have miss : ∀ c, caches s dev blockno c = false := fun c => by
      simpa using List.find?_eq_none.mp found c (member c)
    cases spare : l.reverse.find? (unused s) with
    | none => simp [found, spare] at h
    | some c =>
      simp only [found, spare, Except.ok.injEq, Prod.mk.injEq] at h
      obtain ⟨rfl, rfl⟩ := h
      have free : unused s c = true := List.find?_some spare
      exact Or.inr ⟨miss, by simpa [unused] using free, rfl⟩

omit [DecidableEq Proc] in
/-- `bget` fails only where every buffer is in use. -/
theorem bget_error (ring : Ringed s) (h : bget s dev blockno = .error f) :
    f = .noBuffers ∧ ∀ c, (s.buf c).refcnt ≠ 0 := by
  obtain ⟨l, member, searches⟩ := ring.searches
  unfold bget at h
  rw [(searches _).1, (searches _).2] at h
  cases found : l.find? (caches s dev blockno) with
  | some c => simp [found] at h
  | none =>
    cases spare : l.reverse.find? (unused s) with
    | some c => simp [found, spare] at h
    | none =>
      simp only [found, spare, Except.error.injEq] at h
      refine ⟨h.symm, fun c => ?_⟩
      simpa [unused] using List.find?_eq_none.mp spare c (by simpa using member c)

theorem step_moves (ring : Ringed s) (h : step s e = .ok t) : Moves s e t := by
  cases e with
  | bread p dev blockno =>
    simp only [step] at h
    split at h
    next here =>
      obtain ⟨⟨b, r⟩, got, went⟩ := Outcomes.bind_eq_ok.mp h
      obtain rfl := Except.ok.inj went
      rcases bget_ok ring got with ⟨hit, rfl⟩ | ⟨miss, free, rfl⟩
      · exact .hits p dev blockno b here hit
      · exact .recycles p dev blockno b here miss free
    next => exact nomatch h
  | acquire p =>
    simp only [step] at h
    split at h
    next u here =>
      obtain rfl := Except.ok.inj h
      unfold acquiresleep
      split
      next => exact .waits p u here
      next free => exact .locks p u here (by simpa using free)
    next => exact nomatch h
  | read p =>
    simp only [step] at h
    split at h
    next u here => exact Except.ok.inj h ▸ .reads p u here
    next => exact nomatch h
  | change p u data =>
    simp only [step] at h
    split at h
    next here => exact Except.ok.inj h ▸ .changes p u data here
    next => exact nomatch h
  | bwrite p u =>
    simp only [step] at h
    split at h
    next here =>
      split at h
      next => exact Except.ok.inj h ▸ .writes p u here
      next => exact nomatch h
    next => exact nomatch h
  | brelse p u =>
    simp only [step] at h
    split at h
    next here =>
      split at h
      next => exact Except.ok.inj h ▸ .releases p u here
      next => exact nomatch h
    next => exact nomatch h
  | drop p =>
    simp only [step] at h
    split at h
    next u here => exact Except.ok.inj h ▸ .drops p u here
    next => exact nomatch h
  | bpin p b =>
    simp only [step] at h
    split at h
    next => exact Except.ok.inj h ▸ .pins p b
    next => exact nomatch h
  | bunpin p b =>
    simp only [step] at h
    split at h
    next => exact Except.ok.inj h ▸ .unpins p b
    next => exact nomatch h
  | kill p =>
    simp only [step] at h
    split at h
    next u here => exact Except.ok.inj h ▸ .killed p u here
    next => exact Except.ok.inj h ▸ .nothing p

@[simp] theorem wake_held (w : User) : (w.wake b).held = w.held := rfl

omit [DecidableEq Proc] in
/-- A field that the new buffer has as the old one does is the same everywhere. -/
theorem setBuf_keeps {A : Type} (field : Buf Proc Data → A) {new : Buf Proc Data}
    (same : field new = field (s.buf b)) (c : Fin NBUF) :
    field ((s.setBuf b new).buf c) = field (s.buf c) :=
  Updates.update_reads field same c

omit [DecidableEq Proc] in
@[simp] theorem setBuf_user (b : Fin NBUF) (new : Buf Proc Data) :
    (s.setBuf b new).user = s.user := rfl

omit [DecidableEq Proc] in
theorem setBuf_at (b : Fin NBUF) (new : Buf Proc Data) : (s.setBuf b new).buf b = new := by
  simp [Cache.setBuf]

omit [DecidableEq Proc] in
theorem setBuf_of_ne {c : Fin NBUF} (new : Buf Proc Data) (other : c ≠ b) :
    (s.setBuf b new).buf c = s.buf c := by
  simp [Cache.setBuf, other]

omit [DecidableEq Proc] in
/-- After `fill` the buffer is valid, with the data it had or that of the disk. -/
theorem fill_eq (s : Cache Proc Data) (b : Fin NBUF) : fill s b = s.setBuf b
    { s.buf b with
      data := if (s.buf b).valid then (s.buf b).data else s.disk (s.buf b).blockno
      valid := true } := by
  cases valid : (s.buf b).valid with
  | false => simp [fill, valid]
  | true =>
    have same : s.buf b = { s.buf b with valid := true } := by rw [← valid]
    simp only [fill, valid, if_true, ← same, Cache.setBuf, update_eq_self]

omit [DecidableEq Proc] in
/-- After `dropRef` only the count and the place in the ring may be others. -/
theorem dropRef_eq (s : Cache Proc Data) (b : Fin NBUF) : dropRef s b =
    { s.setRefcnt b ((s.buf b).refcnt - 1) with
      links := if (s.buf b).refcnt - 1 = 0 then (s.links.detach (some b)).push none (some b)
        else s.links } := by
  simp only [dropRef, Cache.setRefcnt, setBuf_at]
  split <;> rfl

end BufferCache
