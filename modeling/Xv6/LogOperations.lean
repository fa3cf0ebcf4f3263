import Mathlib.Logic.Function.Basic
import Xv6.Lib.EventRuns
import Xv6.Lib.Tallies
import Xv6.LogFormat

/-!
# Operations on the log

`begin_op`, `log_write` and `end_op` by any number of processes. Each step is
one critical section of `log.lock`: between two steps the lock is free. A
process that sleeps gives the lock back and is asleep in one step, which is
what `sleep` guarantees, and a wakeup is part of the critical section that
makes it. `commit` runs without the lock, so its loops take one step for each
block and read `log.lh` anew in each.
-/

namespace LogOperations
open EventRuns LogFormat Function

/-- How far `commit` has come. -/
inductive Phase
  | start
  | writeLog (tail : Nat)
  | writeHead
  | installTrans (tail : Nat)
  | clear
  | erase
  | finish
  deriving DecidableEq

/-- Where a process is. Operations are numbered as they begin; `own` is ghost,
the distinct blocks that the operation has logged. -/
inductive Place
  | outside
  | asleep
  | woken
  | inside (op : Nat) (own : List BlockNo)
  | commit (phase : Phase)
  deriving DecidableEq

/-- Ghost: what one commit wrote, what had been logged since the commit before
it, and the operations that had ended by then. -/
structure Commit where
  copied : List BlockNo
  header : List BlockNo
  logged : List (Nat × BlockNo)
  ended : List Nat
  deriving DecidableEq

inductive Fault
  | tooBig       -- "too big a transaction"
  | outsideTrans -- "log_write outside of trans"
  | committing   -- "log.committing"
  | disabled     -- not what the process does next
  deriving DecidableEq

structure Log (Proc : Type) where
  /-- `log.size`, an `int`. -/
  size : Int
  outstanding : Int
  committing : Bool
  /-- `log.lh`, the first `n` entries of `block`. -/
  lh : List BlockNo
  place : Proc → Place
  nextOp : Nat
  /-- Ghost: who has logged which block since the last commit. -/
  logged : List (Nat × BlockNo)
  ended : List Nat
  /-- Ghost: the blocks that the running commit has copied to the log. -/
  copied : List BlockNo
  commits : List Commit

inductive Event (Proc : Type)
  | beginOp (p : Proc)
  | wakes (p : Proc)
  | logWrite (p : Proc) (b : BlockNo)
  | endOp (p : Proc)
  | commit (p : Proc)
  | kill (p : Proc)
  deriving DecidableEq

variable {Proc : Type} [DecidableEq Proc]

/-- `log.size = sb->nlog`, from `uint` to `int`. -/
def initlog (nlog : BitVec 32) : Log Proc where
  size := nlog.toInt
  outstanding := 0
  committing := false
  lh := []
  place := fun _ => .outside
  nextOp := 0
  logged := []
  ended := []
  copied := []
  commits := []

def Log.goTo (s : Log Proc) (p : Proc) (there : Place) : Log Proc :=
  { s with place := update s.place p there }

def Place.wake : Place → Place
  | .asleep => .woken
  | there => there

/-- `wakeup(&log)`. -/
def Log.wakeup (s : Log Proc) : Log Proc := { s with place := fun p => (s.place p).wake }

/-- The operation may start: the log is not committing, and there is room for
all that may be logged by it and by those in progress. -/
def Admits (s : Log Proc) : Prop :=
  s.committing = false ∧ ¬ s.lh.length + (s.outstanding + 1) * MAXOPBLOCKS > LOGSIZE

instance decidableAdmits (s : Log Proc) : Decidable (Admits s) := by
  unfold Admits
  infer_instance

/-- One round of the loop of `begin_op`. -/
def tryBegin (s : Log Proc) (p : Proc) : Log Proc :=
  if s.committing then s.goTo p .asleep
  else if s.lh.length + (s.outstanding + 1) * MAXOPBLOCKS > LOGSIZE then s.goTo p .asleep
  else
    { s.goTo p (.inside s.nextOp []) with
      outstanding := s.outstanding + 1
      nextOp := s.nextOp + 1 }

/-- Log absorption: the entry that names the block, or a new one at the end. -/
def absorb : List BlockNo → BlockNo → List BlockNo
  | [], b => [b]
  | c :: cs, b => if c = b then b :: cs else c :: absorb cs b

def logWrite (s : Log Proc) (p : Proc) (b : BlockNo) (op : Nat) (own : List BlockNo) :
    Except Fault (Log Proc) :=
  if (LOGSIZE : Int) ≤ s.lh.length ∨ s.size - 1 ≤ s.lh.length then .error .tooBig
  else if s.outstanding < 1 then .error .outsideTrans
  else .ok
    { s.goTo p (.inside op (own.insert b)) with
      lh := absorb s.lh b
      logged := (op, b) :: s.logged }

/-- The first critical section of `end_op`. -/
def endOp (s : Log Proc) (p : Proc) (op : Nat) : Except Fault (Log Proc) :=
  let s := { s with outstanding := s.outstanding - 1, ended := op :: s.ended }
  if s.committing then .error .committing
  else if s.outstanding = 0 then .ok { s.goTo p (.commit .start) with committing := true }
  else .ok (s.wakeup.goTo p .outside)

/-- One step of `commit`, or the second critical section of `end_op`. -/
def commitStep (s : Log Proc) (p : Proc) : Phase → Log Proc
  | .start =>
    if s.lh.length > 0 then { s.goTo p (.commit (.writeLog 0)) with copied := [] }
    else s.goTo p (.commit .finish)
  | .writeLog tail =>
    if tail < s.lh.length then
      { s.goTo p (.commit (.writeLog (tail + 1))) with copied := s.copied ++ [s.lh.getD tail 0] }
    else s.goTo p (.commit .writeHead)
  | .writeHead =>
    { s.goTo p (.commit (.installTrans 0)) with
      commits := ⟨s.copied, s.lh, s.logged, s.ended⟩ :: s.commits
      logged := [] }
  | .installTrans tail =>
    if tail < s.lh.length then s.goTo p (.commit (.installTrans (tail + 1)))
    else s.goTo p (.commit .clear)
  | .clear => { s.goTo p (.commit .erase) with lh := [] }
  | .erase => s.goTo p (.commit .finish)
  | .finish => { (s.wakeup.goTo p .outside) with committing := false }

def step (s : Log Proc) : Event Proc → Except Fault (Log Proc)
  | .beginOp p => match s.place p with
    | .outside => .ok (tryBegin s p)
    | _ => .error .disabled
  | .wakes p => match s.place p with
    | .woken => .ok (tryBegin s p)
    | _ => .error .disabled
  | .logWrite p b => match s.place p with
    | .inside op own => logWrite s p b op own
    | _ => .error .disabled
  | .endOp p => match s.place p with
    | .inside op _ => endOp s p op
    | _ => .error .disabled
  | .commit p => match s.place p with
    | .commit phase => .ok (commitStep s p phase)
    | _ => .error .disabled
  | .kill p => match s.place p with
    | .asleep => .ok (s.goTo p .woken)
    | _ => .ok s

/-- The steps that do not fault, with their guards. -/
inductive Moves (s : Log Proc) : Event Proc → Log Proc → Prop
  | waits {e : Event Proc} (p : Proc) (free : s.place p = .outside ∨ s.place p = .woken)
      (full : ¬ Admits s) : Moves s e (s.goTo p .asleep)
  | begins {e : Event Proc} (p : Proc) (free : s.place p = .outside ∨ s.place p = .woken)
      (admits : Admits s) : Moves s e
        { s.goTo p (.inside s.nextOp []) with
          outstanding := s.outstanding + 1
          nextOp := s.nextOp + 1 }
  | logs (p : Proc) (b : BlockNo) (op : Nat) (own : List BlockNo)
      (here : s.place p = .inside op own) (room : s.lh.length < LOGSIZE)
      (begun : 1 ≤ s.outstanding) : Moves s (.logWrite p b)
        { s.goTo p (.inside op (own.insert b)) with
          lh := absorb s.lh b
          logged := (op, b) :: s.logged }
  | endsLast (p : Proc) (op : Nat) (own : List BlockNo) (here : s.place p = .inside op own)
      (idle : s.committing = false) (last : s.outstanding - 1 = 0) : Moves s (.endOp p)
        { s.goTo p (.commit .start) with
          outstanding := s.outstanding - 1
          ended := op :: s.ended
          committing := true }
  | ends (p : Proc) (op : Nat) (own : List BlockNo) (here : s.place p = .inside op own)
      (idle : s.committing = false) (more : s.outstanding - 1 ≠ 0) : Moves s (.endOp p)
        { s.wakeup.goTo p .outside with
          outstanding := s.outstanding - 1
          ended := op :: s.ended }
  | commits (p : Proc) (phase : Phase) (here : s.place p = .commit phase)
      (more : phase ≠ .finish) : Moves s (.commit p) (commitStep s p phase)
  | finishes (p : Proc) (here : s.place p = .commit .finish) :
      Moves s (.commit p) { s.wakeup.goTo p .outside with committing := false }
  | killed (p : Proc) (here : s.place p = .asleep) : Moves s (.kill p) (s.goTo p .woken)
  | nothing (p : Proc) : Moves s (.kill p) s

variable {s t : Log Proc} {e : Event Proc} {p q : Proc}

theorem tryBegin_moves (free : s.place p = .outside ∨ s.place p = .woken) :
    Moves s e (tryBegin s p) := by
  unfold tryBegin
  split
  next busy => exact .waits p free fun admits => by simp [admits.1] at busy
  next idle =>
    split
    next full => exact .waits p free fun admits => admits.2 full
    next room => exact .begins p free ⟨by simpa using idle, room⟩

theorem step_moves (h : step s e = .ok t) : Moves s e t := by
  cases e with
  | beginOp p =>
    simp only [step] at h
    split at h
    next here => exact Except.ok.inj h ▸ tryBegin_moves (Or.inl here)
    next => exact nomatch h
  | wakes p =>
    simp only [step] at h
    split at h
    next here => exact Except.ok.inj h ▸ tryBegin_moves (Or.inr here)
    next => exact nomatch h
  | logWrite p b =>
    simp only [step] at h
    split at h
    next op own here =>
      simp only [logWrite] at h
      split at h
      · exact nomatch h
      next room =>
        split at h
        · exact nomatch h
        next begun =>
          have room : s.lh.length < LOGSIZE := by omega
          exact Except.ok.inj h ▸ .logs p b op own here room (by omega)
    next => exact nomatch h
  | endOp p =>
    simp only [step] at h
    split at h
    next op own here =>
      simp only [endOp] at h
      split at h
      · exact nomatch h
      next idle =>
        have idle : s.committing = false := by simpa using idle
        split at h
        next last => exact Except.ok.inj h ▸ .endsLast p op own here idle last
        next more => exact Except.ok.inj h ▸ .ends p op own here idle more
    next => exact nomatch h
  | commit p =>
    simp only [step] at h
    split at h
    next phase here =>
      by_cases last : phase = .finish
      · subst last
        exact Except.ok.inj h ▸ .finishes p here
      · exact Except.ok.inj h ▸ .commits p phase here last
    next => exact nomatch h
  | kill p =>
    simp only [step] at h
    split at h
    next here => exact Except.ok.inj h ▸ .killed p here
    next => exact Except.ok.inj h ▸ .nothing p

/-- Before its end a step of `commit` only moves the process along. -/
theorem commitStep_along {phase : Phase} (more : phase ≠ .finish) :
    (∃ next, (commitStep s p phase).place = update s.place p (.commit next)) ∧
      (commitStep s p phase).outstanding = s.outstanding ∧
      (commitStep s p phase).committing = s.committing ∧
      (commitStep s p phase).nextOp = s.nextOp ∧
      (commitStep s p phase).ended = s.ended := by
  cases phase with
  | start =>
    simp only [commitStep]
    split <;> exact ⟨⟨_, rfl⟩, rfl, rfl, rfl, rfl⟩
  | writeLog tail =>
    simp only [commitStep]
    split <;> exact ⟨⟨_, rfl⟩, rfl, rfl, rfl, rfl⟩
  | installTrans tail =>
    simp only [commitStep]
    split <;> exact ⟨⟨_, rfl⟩, rfl, rfl, rfl, rfl⟩
  | finish => exact absurd rfl more
  | _ => exact ⟨⟨_, rfl⟩, rfl, rfl, rfl, rfl⟩

@[simp] theorem goTo_place (there : Place) :
    (s.goTo p there).place = update s.place p there := rfl

omit [DecidableEq Proc] in
@[simp] theorem wakeup_place : s.wakeup.place q = (s.place q).wake := rfl

@[simp] theorem wake_eq_commit {there : Place} {phase : Phase} :
    there.wake = .commit phase ↔ there = .commit phase := by
  cases there <;> simp [Place.wake]

@[simp] theorem wake_eq_inside {there : Place} {op : Nat} {own : List BlockNo} :
    there.wake = .inside op own ↔ there = .inside op own := by
  cases there <;> simp [Place.wake]

@[simp] theorem wake_ne_asleep (there : Place) : there.wake ≠ .asleep := by
  cases there <;> simp [Place.wake]

theorem absorb_length (lh : List BlockNo) (b : BlockNo) :
    (absorb lh b).length = if b ∈ lh then lh.length else lh.length + 1 := by
  induction lh with
  | nil => simp [absorb]
  | cons c cs ih =>
    simp only [absorb]
    split
    next same => simp [same]
    next other =>
      have apart : b ≠ c := fun same => other same.symm
      simp only [List.length_cons, ih, List.mem_cons, apart, false_or]
      split <;> rfl

theorem mem_absorb {lh : List BlockNo} {b c : BlockNo} : c ∈ absorb lh b ↔ c = b ∨ c ∈ lh := by
  induction lh with
  | nil => simp [absorb]
  | cons d ds ih =>
    simp only [absorb]
    split
    next same =>
      subst same
      simp
    next other =>
      simp only [List.mem_cons, ih]
      exact or_left_comm

theorem absorb_nodup {lh : List BlockNo} {b : BlockNo} (h : lh.Nodup) : (absorb lh b).Nodup := by
  induction lh with
  | nil => simp [absorb]
  | cons d ds ih =>
    obtain ⟨fresh, rest⟩ := List.nodup_cons.mp h
    simp only [absorb]
    split
    next same => exact same ▸ h
    next other =>
      refine List.nodup_cons.mpr ⟨?_, ih rest⟩
      rw [mem_absorb, not_or]
      exact ⟨other, fresh⟩

/-- What one operation in progress counts for. -/
def Place.running : Place → Nat
  | .inside _ _ => 1
  | _ => 0

section Sums

variable [Fintype Proc] {f : Place → Nat}

omit [DecidableEq Proc] in
theorem sum_wake (place : Proc → Place) (awake : ∀ there, f there.wake = f there) :
    ∑ q, f (place q).wake = ∑ q, f (place q) :=
  Finset.sum_congr rfl fun q _ => awake (place q)

theorem running_wake (there : Place) : there.wake.running = there.running := by
  cases there <;> rfl

end Sums

end LogOperations
