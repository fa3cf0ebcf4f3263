import Xv6.Lib.ByteMemory
import Xv6.Lib.EventRuns

/-!
# A message that receivers pass on through a pipe

`broadcast` and `unicast` have the same processes. The parent makes two pipes
and forks the receivers, writes one message into the first pipe and reads the
second one. A receiver reads the message and then either acknowledges it on the
second pipe or writes it back into the first one. An event is the next step of
one process, so a list of events is an order in which the processes run. The
message is what the pipes carry byte by byte.
-/

namespace PipeReceivers

open ByteMemory EventRuns

def PIPESIZE : Nat := 512

/-- The bytes read and the bytes left; a read of an empty pipe sleeps while the
writing end is open. -/
def piperead (writeopen : Bool) (data : List Byte) (n : Nat) : Option (List Byte × List Byte) :=
  if data = [] ∧ writeopen then none else some (data.take n, data.drop n)

/-- A write that does not fit sleeps with a part of it in the pipe; here it waits
until all of it fits. -/
def pipewrite (readopen : Bool) (data bytes : List Byte) : Option (List Byte) :=
  if ¬ readopen then some data
  else if data.length + bytes.length ≤ PIPESIZE then some (data ++ bytes)
  else none

def MAX_NUM_RECEIVERS : Nat := 10

def MAX_MSG_SIZE : Nat := 256

/-- The offset of `flags[i]`. -/
def flag (i : Nat) : Nat := 4 * i

/-- The offset of `content`. -/
def content : Nat := flag MAX_NUM_RECEIVERS

def setFlag (msg : Memory) (i : Nat) (x : BitVec 32) : Memory := storeWord msg (flag i) x

/-- The loop of the parent over a frame that starts zero. With fewer than `NPROC` receivers the
flags stay inside the structure. -/
def setFlags (numReceiver : Nat) : Memory :=
  (List.range numReceiver).foldl (fun msg i => setFlag msg i 1) fun _ => 0

/-- `msg.content` as `printf` shows it, if it ends inside the array. -/
def text? (msg : Memory) : Option (List Byte) := stringAt msg content MAX_MSG_SIZE

/-- A text of two letters. -/
def hi : CString := ⟨[0x68, 0x69], by decide⟩

/-- What a receiver writes after it has read the message. -/
inductive Reply where
  | acknowledge (bytes : List Byte)
  | writeBack (msg : Memory)

/-- What differs between the programs that work this way. -/
structure Program where
  numReceiver : Nat
  /-- `sizeof(struct msg_t)`. -/
  size : Nat
  /-- The message the parent writes. -/
  msg : Memory
  /-- The code of child `myId` from its read to its write. -/
  receive : Nat → Memory → Reply
  nonempty : 0 < size
  fits : size ≤ PIPESIZE
  /-- An acknowledgement is read by one read of the parent. -/
  acknowledges : ∀ myId msg bytes, receive myId msg = .acknowledge bytes →
    0 < bytes.length ∧ bytes.length ≤ size

inductive Parent where
  /-- At the test of the loop that forks. -/
  | forking (i : Nat)
  | awaiting | received | exited

inductive Child where
  | absent
  /-- At its read. -/
  | started
  /-- At its write. -/
  | holding (msg : Memory)
  | answered | exited

def Parent.live : Parent → Bool
  | .exited => false
  | _ => true

def Child.live : Child → Bool
  | .absent | .exited => false
  | _ => true

structure State (n : Nat) where
  parent : Parent
  child : Fin n → Child
  channelToReceivers : List Byte
  channelFromReceivers : List Byte
  /-- What the parent has read. -/
  recvBuf : Option (List Byte)
  /-- The reads of the message so far, as history. -/
  reads : List (Fin n × Memory)
  /-- The acknowledgements written so far, as history. -/
  acks : List (Fin n)

/-- Which process takes its next step. -/
inductive Event (n : Nat) where
  | parent
  | child (i : Fin n)

inductive Stop where
  | notRunning
  /-- In `piperead`, or in `pipewrite`. -/
  | blocked

/-- No process closes a descriptor before it exits, so the ends of both pipes are open
while a process lives. -/
def State.opened {n : Nat} (s : State n) : Bool :=
  s.parent.live || decide (∃ i, (s.child i).live)

def State.setChild {n : Nat} (s : State n) (i : Fin n) (c : Child) : State n :=
  { s with child := Function.update s.child i c }

/-- A message as it arrives in the zeroed frame of its reader. -/
def arrived (bytes : List Byte) : Memory := store (fun _ => 0) 0 bytes

/-- A message that has gone through the pipe. -/
theorem arrived_agree (msg : Memory) (size : Nat) :
    Agree (arrived (load msg 0 size)) msg 0 size :=
  store_load_agree _ msg 0 size

theorem text_arrived (msg : Memory) {size : Nat} (whole : content + MAX_MSG_SIZE ≤ size) :
    text? (arrived (load msg 0 size)) = text? msg := by
  apply Agree.stringAt
  exact (arrived_agree msg size).mono (Nat.zero_le _) (by simpa using whole)

def stepParent (P : Program) (s : State P.numReceiver) : Except Stop (State P.numReceiver) :=
  match s.parent with
  | .forking i =>
    if h : i < P.numReceiver then
      .ok { s.setChild ⟨i, h⟩ .started with parent := .forking (i + 1) }
    else
      match pipewrite s.opened s.channelToReceivers (load P.msg 0 P.size) with
      | some data => .ok { s with parent := .awaiting, channelToReceivers := data }
      | none => .error .blocked
  | .awaiting =>
    match piperead s.opened s.channelFromReceivers P.size with
    | some (bytes, rest) =>
      .ok { s with parent := .received, channelFromReceivers := rest, recvBuf := some bytes }
    | none => .error .blocked
  | .received => .ok { s with parent := .exited }
  | .exited => .error .notRunning

def stepChild (P : Program) (s : State P.numReceiver) (i : Fin P.numReceiver) :
    Except Stop (State P.numReceiver) :=
  match s.child i with
  | .absent => .error .notRunning
  | .started =>
    match piperead s.opened s.channelToReceivers P.size with
    | some (bytes, rest) =>
      .ok { s.setChild i (.holding (arrived bytes)) with
        channelToReceivers := rest, reads := s.reads ++ [(i, arrived bytes)] }
    | none => .error .blocked
  | .holding msg =>
    match P.receive i msg with
    | .acknowledge bytes =>
      match pipewrite s.opened s.channelFromReceivers bytes with
      | some data =>
        .ok { s.setChild i .answered with channelFromReceivers := data, acks := s.acks ++ [i] }
      | none => .error .blocked
    | .writeBack msg =>
      match pipewrite s.opened s.channelToReceivers (load msg 0 P.size) with
      | some data => .ok { s.setChild i .answered with channelToReceivers := data }
      | none => .error .blocked
  | .answered => .ok (s.setChild i .exited)
  | .exited => .error .notRunning

def step (P : Program) (s : State P.numReceiver) :
    Event P.numReceiver → Except Stop (State P.numReceiver)
  | .parent => stepParent P s
  | .child i => stepChild P s i

/-- After the pipes have been made. -/
def start (P : Program) : State P.numReceiver where
  parent := .forking 0
  child := fun _ => .absent
  channelToReceivers := []
  channelFromReceivers := []
  recvBuf := none
  reads := []
  acks := []

def Reachable (P : Program) (s : State P.numReceiver) : Prop :=
  ∃ es, run (step P) (start P) es = .ok s

end PipeReceivers
