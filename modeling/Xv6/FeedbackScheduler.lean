import Xv6.QueueStore

/-!
# The multi-level feedback scheduler

`MLFQ_scheduler`, `startMLFQ`, `stopMLFQ` and `getMLFQInfo` of `kernel/proc.c`.
One iteration of the scheduler loop is the sequence of its blocks: the tick
block, Rule 5, the admission scan, the selection and the dispatch. Every index
into `mlfqQueues`, `ticks` and `tickCounts` goes through `mlfqIndex`, which
faults outside the arrays. `log` is history and steers nothing.
-/

namespace FeedbackScheduler

open ProcTable QueueStore Outcomes

/-- What the scheduler and the slot life cycle have done, latest first. -/
inductive Mark where
  | started (m n : Int)
  | stopped
  /-- The slot's MLFQ fields were zeroed by `allocproc` or `freeproc`. -/
  | reset (i : Slot)
  /-- The tick block charged a process at its level. -/
  | charged (i : Slot) (l : Level)
  /-- A quantum ran out at the level where the process stays. -/
  | spent (i : Slot) (l : Level)
  /-- The process moved from `l` to the next level. -/
  | demoted (i : Slot) (l : Level)
  /-- Rule 5 counted a tick of a process in the bottom queue. -/
  | aged (i : Slot) (l : Level)
  /-- Rule 5 moved the process from `l` to the top queue. -/
  | boosted (i : Slot) (l : Level)
  /-- One pass of the Rule 5 loop is complete. -/
  | passed
  /-- The admission scan found the process runnable. -/
  | scanned (i : Slot)
  | admitted (i : Slot)
  /-- The process was switched to, having this state just before. -/
  | dispatched (i : Slot) (state : ProcState)
  deriving DecidableEq

/-- `m` and `n` are `mlfqParams`; `store` holds `mlfqQueues` and the pages. -/
structure Kernel extends Table where
  mlfqFlag : Bool
  m : Int
  n : Int
  store : Store
  log : List Mark

/-- The local variables of `MLFQ_scheduler` that outlive an iteration. -/
structure Frame where
  p : Option Slot
  rrIndex : Nat
  deriving DecidableEq

/-- The frame of a new call. -/
def Frame.entry : Frame := ⟨none, 0⟩

def Kernel.note (k : Kernel) (mark : Mark) : Kernel := { k with log := mark :: k.log }

def Kernel.setStore (k : Kernel) (s : Store) : Kernel := { k with store := s }

def Kernel.setInfo (k : Kernel) (i : Slot) (info : MLFQInfoReport) : Kernel :=
  { k with toTable := k.toTable.set i { k.proc i with mlfqInfo := info } }

/-- `p->mlfqInfo`. -/
def Kernel.info (k : Kernel) (i : Slot) : MLFQInfoReport := (k.proc i).mlfqInfo

/-- An index into an array of `MLFQ_MAX_LEVEL` elements. -/
def mlfqIndex (i : Int) : Except Fault Level :=
  if h : 0 ≤ i ∧ i < mlfqMaxLevel then .ok ⟨i.toNat, by omega⟩ else .error .outOfBounds

/-- The body of the tick block. The flag says that the quantum was used up, so
that `p` is cleared and the rest of the iteration is skipped. -/
def chargeTick (k : Kernel) (i : Slot) : Except Fault (Kernel × Bool) := do
  let info := k.info i
  let l ← mlfqIndex info.priority
  let info := { info with
    ticks := Function.update info.ticks l (info.ticks l + 1),
    tickCounts := Function.update info.tickCounts l (info.tickCounts l + 1) }
  let k := (k.setInfo i info).note (.charged i l)
  if 2 * (info.priority + 1) ≤ info.ticks l then
    if (info.priority : Int) < k.m - 1 then
      let lower ← mlfqIndex (info.priority + 1)
      let store ← mlfqEnque k.store lower i
      let store ← mlfqDelete store l i
      let info := { info with
        ticks := Function.update info.ticks l 0, priority := info.priority + 1 }
      pure (((k.setStore store).setInfo i info).note (.demoted i l), true)
    else
      let info := { info with ticks := Function.update info.ticks l 0 }
      pure ((k.setInfo i info).note (.spent i l), true)
  else pure (k, false)

/-- The tick block: `p` is charged when it is still runnable or running. -/
def tickBlock (k : Kernel) (p : Option Slot) : Except Fault (Kernel × Bool) :=
  match p with
  | none => .ok (k, false)
  | some i =>
    if (k.proc i).state = .runnable ∨ (k.proc i).state = .running then chargeTick k i
    else .ok (k, false)

/-- Rule 5 for one element of the bottom queue `last`. -/
def ruleFiveVisit (k : Kernel) (last : Level) (i : Slot) : Except Fault Kernel := do
  let info := k.info i
  if (info.priority : Int) = k.m - 1 then
    let l ← mlfqIndex info.priority
    let info := { info with
      ticksAtMaxPriority := info.ticksAtMaxPriority + 1,
      tickCounts := Function.update info.tickCounts l (info.tickCounts l + 1) }
    let k := (k.setInfo i info).note (.aged i l)
    if k.n ≤ info.ticksAtMaxPriority then
      let store ← mlfqEnque k.store 0 i
      let store ← mlfqDelete store last i
      let info := { info with
        ticksAtMaxPriority := 0, ticks := Function.update info.ticks l 0 }
      let info := { info with priority := 0, ticks := Function.update info.ticks 0 0 }
      pure (((k.setStore store).setInfo i info).note (.boosted i l))
    else pure k
  else pure k

/-- `while (temp != 0)`: `temp->next` is read after the visit, from an element
that the visit may have unlinked. -/
def ruleFiveLoop (last : Level) : Nat → Kernel → Option Addr → Except Fault Kernel
  | _, k, none => .ok k
  | 0, _, some _ => .error .diverges
  | fuel + 1, k, some temp => do
    let k ← ruleFiveVisit k last (k.store.procAt temp)
    ruleFiveLoop last fuel k (k.store.next temp)

/-- No element is visited twice, and each one is a page taken before the pass
or taken from the free list during it; the fuel is the number of those pages. -/
def ruleFive (k : Kernel) : Except Fault Kernel := do
  let last ← mlfqIndex (k.m - 1)
  let fuel := k.store.taken.length + k.store.freelist.length
  let k ← ruleFiveLoop last fuel k (k.store.head last)
  pure (k.note .passed)

/-- One turn of the admission scan. -/
def admissionTurn (k : Kernel) (i : Slot) : Except Fault Kernel :=
  if (k.proc i).state = .runnable then
    if (k.info i).addedToMLFQ then .ok (k.note (.scanned i))
    else do
      let store ← mlfqEnque k.store 0 i
      let info := { k.info i with addedToMLFQ := true }
      pure ((((k.setStore store).setInfo i info).note (.admitted i)).note (.scanned i))
  else .ok k

def admissionScan (k : Kernel) : Except Fault Kernel :=
  (List.finRange nproc).foldlM admissionTurn k

/-- `highest_priority` after its loop; it starts at `__INT_MAX__`. -/
def highestPriority (k : Kernel) : Nat :=
  (List.finRange nproc).foldl
    (fun best i =>
      if (k.proc i).state = .runnable ∧ (k.info i).priority < best
      then (k.info i).priority else best)
    2147483647

/-- `procs_with_highest_priority`, as far as this iteration has written it. -/
def procsWithHighestPriority (k : Kernel) : List Slot :=
  (List.finRange nproc).filter fun i =>
    (k.proc i).state = .runnable ∧ (k.info i).priority = highestPriority k

/-- A selection step assigns `p` and `rr_index`. -/
abbrev Selection := Kernel → Nat → Option Slot × Nat

/-- The selection block. An array element that this iteration has not written
holds whatever the stack held, here `stale`. -/
def select (stale : Option Slot) : Selection := fun k rrIndex =>
  let procs := procsWithHighestPriority k
  if 1 < procs.length then
    (if h : rrIndex < procs.length then some (procs.get ⟨rrIndex, h⟩) else stale,
      (rrIndex + 1) % procs.length)
  else (procs.head?, rrIndex)

/-- The selection is made only when no process is left over. -/
def selectionBlock (choose : Selection) (k : Kernel) (f : Frame) : Frame :=
  match f.p with
  | some _ => f
  | none => ⟨(choose k f.rrIndex).1, (choose k f.rrIndex).2⟩

/-- The dispatch block up to `swtch`; the state of `p` is not tested. -/
def dispatch (k : Kernel) (p : Option Slot) : Kernel :=
  match p with
  | none => k
  | some i =>
    { k.note (.dispatched i (k.proc i).state) with
      toTable := k.toTable.set i (swtchTo (k.proc i)) }

/-- One iteration of the loop of `MLFQ_scheduler`, entered with the flag set. -/
def iteration (choose : Selection) (k : Kernel) (f : Frame) :
    Except Fault (Kernel × Frame) := do
  let (k, expired) ← tickBlock k f.p
  if expired then pure (k, { f with p := none })
  else
    let k ← ruleFive k
    let k ← admissionScan k
    let f := selectionBlock choose k f
    pure (dispatch k f.p, f)

def startMLFQ (k : Kernel) (m n : Int) : Int × Kernel :=
  if k.mlfqFlag then (-1, k)
  else
    (0, { k with
      mlfqFlag := true, m := m, n := n,
      store := { k.store with head := fun _ => none },
      log := .started m n :: k.log })

def stopMLFQ (k : Kernel) : Int × Kernel :=
  if k.mlfqFlag then (0, { k with mlfqFlag := false, log := .stopped :: k.log })
  else (-1, k)

/-- The report of process `i`; `delivered` is the outcome of `copyout`. -/
def getMLFQInfo (k : Kernel) (i : Slot) (delivered : Bool) : Int × Option MLFQInfoReport :=
  if delivered then (0, some (k.info i)) else (-1, none)

end FeedbackScheduler
