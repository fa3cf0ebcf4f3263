import Xv6.Lib.LockLedger
import Xv6.Lib.Outcomes
import Xv6.SleepWakeup

/-!
# Which locks are held where

The code of a thread says which locks are held at each place. With the control of
the CPUs this gives the locks of every CPU, and every step keeps the ledger. It
follows that a process executes on one CPU at most, that the state of a process
fits the place of its thread, and that no step panics.
-/

namespace LockDiscipline

open EventRuns LockLedger ProcTable SleepWakeup

variable {n : Nat} {CPU Lk Chan : Type}

/-- The locks held at a place of process `i`. -/
def holds (i : Fin n) : Pc n Lk Chan → List (Lock n Lk)
  | .forkret => [.proc i]
  | .idle => []
  | .locked lk => [.lk lk]
  | .sleep _ lk .acquireProc => [.lk lk]
  | .sleep _ lk .releaseLk => [.lk lk, .proc i]
  | .sleep _ _ .acquireLk => []
  | .sleep _ _ _ => [.proc i]
  | .wakeup _ lk _ => [.lk lk]
  | .wakeupAt _ lk p _ => [.proc p, .lk lk]
  | .kill _ _ => []
  | .killAt _ p _ => [.proc p]
  | .exit lk .acquireProc => [.lk lk]
  | .exit lk .store | .exit lk .releaseLk => [.lk lk, .proc i]
  | .exit _ _ => [.proc i]

def threadHolds (i : Fin n) (t : Thread n Lk Chan) : List (Lock n Lk) :=
  match t.yield with
  | none => holds i t.pc
  | some .acquireProc => []
  | some _ => [.proc i]

def heldOn (s : Machine n CPU Lk Chan) (c : CPU) : List (Lock n Lk) :=
  match s.cpu c with
  | .scan _ => []
  | .holding p | .returned p => [.proc p]
  | .running p => threadHolds p (s.thread p)

/-- What a place says about its process: it executes and is `RUNNING`; it executes, and its
state says how it leaves the CPU; it is between `swtch` to the scheduler and back; it is
not switched to any more. -/
inductive Expect where
  | running
  | leaving (st : ProcState)
  | back
  | gone

def expects : Pc n Lk Chan → Expect
  | .forkret => .back
  | .sleep _ _ .sched => .leaving .sleeping
  | .sleep _ _ .tidy => .back
  | .exit _ .releaseLk | .exit _ .sched => .leaving .zombie
  | .exit _ .gone => .gone
  | _ => .running

def threadExpects (t : Thread n Lk Chan) : Expect :=
  match t.yield with
  | none => expects t.pc
  | some .sched => .leaving .runnable
  | some .releaseProc => .back
  | some _ => .running

/-- What a statement does to the locks, and what it needs of them. -/
def Disciplined (i : Fin n) (op : Op n Lk Chan) (before after : List (Lock n Lk)) : Prop :=
  match op with
  | .acquire l => l ∉ before ∧ after.Perm (l :: before)
  | .release l _ => before.Perm (l :: after)
  | .sched => before = [.proc i] ∧ after = [.proc i]
  | .store _ _ | .clearChan => .proc i ∈ before ∧ after = before
  | .wake p _ | .strike p _ => .proc p ∈ before ∧ after = before
  | .mark _ | .skip => after = before
  | .panic => True

/-- What a statement does to the state of its process. -/
def Accounted (op : Op n Lk Chan) (before after : Expect) : Prop :=
  match op with
  | .store st _ => before = .running ∧ after = .leaving st ∧ st ≠ .running
  | .sched => ∃ st, before = .leaving st ∧ st ≠ .running ∧
      (after = .back ∨ after = .gone ∧ st = .zombie)
  | .panic => before = .gone
  | .clearChan => before = .back ∧ after = .running
  | _ => before = after ∨ before = .back ∧ after = .running

/-- The statement `op` leads from one place to another as the locks and the state of the
process allow. -/
structure Legal (i : Fin n) (op : Op n Lk Chan) (pc pc' : Pc n Lk Chan) : Prop where
  locks : Disciplined i op (holds i pc) (holds i pc')
  state : Accounted op (expects pc) (expects pc')

/-- The statements that lead from one place of process `i` to another. -/
inductive Statement (pids : Fin n → Int) (i : Fin n) :
    Pc n Lk Chan → Op n Lk Chan → Pc n Lk Chan → Prop
  | forkret : Statement pids i .forkret (.release (.proc i) []) .idle
  | acquire (lk : Lk) : Statement pids i .idle (.acquire (.lk lk)) (.locked lk)
  | release (lk : Lk) : Statement pids i (.locked lk) (.release (.lk lk) []) .idle
  | callSleep (chan : Chan) (lk : Lk) :
      Statement pids i (.locked lk) .skip (.sleep chan lk .acquireProc)
  | callExit (lk : Lk) : Statement pids i (.locked lk) .skip (.exit lk .acquireProc)
  | callKill (pid : Int) : Statement pids i .idle .skip (.kill pid 0)
  | sleep {chan : Chan} {lk : Lk} {at_ : SleepAt} {op : Op n Lk Chan} {pc : Pc n Lk Chan}
      (code : sleepCode i chan lk at_ = (op, pc)) : Statement pids i (.sleep chan lk at_) op pc
  | exit {lk : Lk} {at_ : ExitAt} {op : Op n Lk Chan} {pc : Pc n Lk Chan}
      (code : exitCode i lk at_ = (op, pc)) : Statement pids i (.exit lk at_) op pc
  | wakeupStarts (chan : Chan) (lk : Lk) :
      Statement pids i (.locked lk) (.mark (.started i chan)) (.wakeup chan lk 0)
  | wakeupSkips (chan : Chan) (lk : Lk) {p : Nat} (own : p = i) :
      Statement pids i (.wakeup chan lk p) .skip (.wakeup chan lk (p + 1))
  | wakeupLocks (chan : Chan) (lk : Lk) {p : Nat} (h : p < n) :
      Statement pids i (.wakeup chan lk p) (.acquire (.proc ⟨p, h⟩))
        (.wakeupAt chan lk ⟨p, h⟩ false)
  | wakeupTests (chan : Chan) (lk : Lk) (p : Fin n) :
      Statement pids i (.wakeupAt chan lk p false) (.wake p chan) (.wakeupAt chan lk p true)
  | wakeupUnlocks (chan : Chan) (lk : Lk) (p : Fin n) :
      Statement pids i (.wakeupAt chan lk p true) (.release (.proc p) []) (.wakeup chan lk (p + 1))
  | wakeupEnds (chan : Chan) (lk : Lk) {p : Nat} (past : n ≤ p) :
      Statement pids i (.wakeup chan lk p) (.mark (.finished i chan)) (.locked lk)
  | killLocks (pid : Int) {p : Nat} (h : p < n) :
      Statement pids i (.kill pid p) (.acquire (.proc ⟨p, h⟩)) (.killAt pid ⟨p, h⟩ false)
  | killTests (pid : Int) (p : Fin n) :
      Statement pids i (.killAt pid p false) (.strike p pid) (.killAt pid p true)
  | killHits {pid : Int} {p : Fin n} (hit : pids p = pid) :
      Statement pids i (.killAt pid p true) (.release (.proc p) []) .idle
  | killMisses {pid : Int} {p : Fin n} (miss : pids p ≠ pid) :
      Statement pids i (.killAt pid p true) (.release (.proc p) []) (.kill pid (p + 1))
  | killEnds (pid : Int) {p : Nat} (past : n ≤ p) : Statement pids i (.kill pid p) .skip .idle

theorem code_statement {pids : Fin n → Int} {i : Fin n} {pc pc' : Pc n Lk Chan}
    {a : Choice Lk Chan} {op : Op n Lk Chan} (h : code pids i pc a = some (op, pc')) :
    Statement pids i pc op pc' := by
  cases pc with
  | forkret | idle | locked =>
    cases a <;> simp only [code, Option.some.injEq, Prod.mk.injEq, reduceCtorEq] at h
    all_goals
      obtain ⟨rfl, rfl⟩ := h
      constructor
  | sleep chan lk at_ =>
    cases a <;> simp only [code, Option.some.injEq, reduceCtorEq] at h
    exact .sleep h
  | exit lk at_ =>
    cases a <;> simp only [code, Option.some.injEq, reduceCtorEq] at h
    exact .exit h
  | wakeup chan lk p =>
    cases a <;> simp only [code, reduceCtorEq] at h
    split at h
    · rename_i inside
      split at h <;> obtain ⟨rfl, rfl⟩ := Prod.mk.inj (Option.some.inj h)
      · rename_i own
        exact .wakeupSkips chan lk own
      · exact .wakeupLocks chan lk inside
    · obtain ⟨rfl, rfl⟩ := Prod.mk.inj (Option.some.inj h)
      exact .wakeupEnds chan lk (by omega)
  | wakeupAt chan lk p tested =>
    cases tested <;> cases a <;>
      simp only [code, Option.some.injEq, Prod.mk.injEq, reduceCtorEq] at h
    all_goals
      obtain ⟨rfl, rfl⟩ := h
      constructor
  | kill pid p =>
    cases a <;> simp only [code, reduceCtorEq] at h
    split at h <;> obtain ⟨rfl, rfl⟩ := Prod.mk.inj (Option.some.inj h)
    · rename_i inside
      exact .killLocks pid inside
    · exact .killEnds pid (by omega)
  | killAt pid p tested =>
    cases tested <;> cases a <;>
      simp only [code, Option.some.injEq, Prod.mk.injEq, reduceCtorEq] at h
    · obtain ⟨rfl, rfl⟩ := h
      exact .killTests pid p
    · obtain ⟨rfl, rfl⟩ := h
      split
      · rename_i hit
        exact .killHits hit
      · rename_i miss
        exact .killMisses miss

theorem sleepCode_legal (i : Fin n) (chan : Chan) (lk : Lk) (at_ : SleepAt) :
    Legal i (sleepCode i chan lk at_).1 (.sleep chan lk at_) (sleepCode i chan lk at_).2 := by
  constructor
  · cases at_ <;> simp [sleepCode, Disciplined, holds, List.Perm.swap]
  · cases at_ <;> simp [sleepCode, Accounted, expects]

theorem exitCode_legal (i : Fin n) (lk : Lk) (at_ : ExitAt) :
    Legal i (exitCode i lk at_).1 (.exit lk at_ : Pc n Lk Chan) (exitCode i lk at_).2 := by
  constructor
  · cases at_ <;> simp [exitCode, Disciplined, holds, List.Perm.swap]
  · cases at_ <;> simp [exitCode, Accounted, expects]

/-- The code holds its locks as it should, statement by statement. -/
theorem code_legal {pids : Fin n → Int} {i : Fin n} {pc pc' : Pc n Lk Chan}
    {a : Choice Lk Chan} {op : Op n Lk Chan} (h : code pids i pc a = some (op, pc')) :
    Legal i op pc pc' := by
  cases code_statement h with
  | @sleep chan lk at_ _ _ code =>
    have legal := sleepCode_legal i chan lk at_
    rwa [code] at legal
  | @exit lk at_ _ _ code =>
    have legal : Legal i (exitCode i lk at_ : Op n Lk Chan × Pc n Lk Chan).1 _ _ :=
      exitCode_legal i lk at_
    rwa [code] at legal
  | _ => constructor <;> simp [Disciplined, Accounted, holds, expects]

/-- The stores to a process's own state are those of `sleep` and `exit`. -/
theorem code_store {pids : Fin n → Int} {i : Fin n} {pc pc' : Pc n Lk Chan}
    {a : Choice Lk Chan} {st : ProcState} {chan : Option Chan}
    (h : code pids i pc a = some (.store st chan, pc')) :
    (∃ ch lk, pc' = .sleep ch lk .sched ∧ st = .sleeping ∧ chan = some ch) ∨
      st = .zombie ∧ chan = none := by
  cases code_statement h with
  | @sleep ch lk at_ _ _ code =>
    cases at_ <;> simp only [sleepCode, Prod.mk.injEq, reduceCtorEq, false_and] at code
    obtain ⟨store, rfl⟩ := code
    obtain ⟨rfl, rfl⟩ := Op.store.inj store
    exact Or.inl ⟨ch, lk, rfl, rfl, rfl⟩
  | @exit lk at_ _ _ code =>
    cases at_ <;> simp only [exitCode, Prod.mk.injEq, reduceCtorEq, false_and] at code
    obtain ⟨store, rfl⟩ := code
    obtain ⟨rfl, rfl⟩ := Op.store.inj store
    exact Or.inr ⟨rfl, rfl⟩

/-- Without a lock a process can be interrupted, and its place is an ordinary one. -/
theorem expects_of_free {i : Fin n} {pc : Pc n Lk Chan} (free : holds i pc = []) :
    expects pc = .running := by
  cases pc with
  | forkret | locked | wakeup | wakeupAt | killAt => simp [holds] at free
  | idle | kill => rfl
  | sleep chan lk at_ => cases at_ <;> simp_all [holds, expects]
  | exit lk at_ => cases at_ <;> simp [holds] at free

variable {s u : Machine n CPU Lk Chan} {c : CPU} {i j : Fin n} {op : Op n Lk Chan}
variable {t : Thread n Lk Chan}

/-- The next statement of process `i` on CPU `c`, and its thread after it. -/
inductive Next (s : Machine n CPU Lk Chan) (c : CPU) (i : Fin n) :
    Op n Lk Chan → Thread n Lk Chan → Prop
  | yield {at_ : YieldAt} (inside : (s.thread i).yield = some at_) :
      Next s c i (yieldCode i at_) { s.thread i with yield := at_.next }
  | timer (outside : (s.thread i).yield = none) (enabled : s.noff c = 0) :
      Next s c i .skip { s.thread i with yield := some .acquireProc }
  | code {a : Choice Lk Chan} {op : Op n Lk Chan} {pc : Pc n Lk Chan}
      (outside : (s.thread i).yield = none)
      (next : code s.pid i (s.thread i).pc a = some (op, pc)) :
      Next s c i op { s.thread i with pc := pc }

/-- `Legal` for the thread with its call of `yield`. -/
structure ThreadLegal (i : Fin n) (op : Op n Lk Chan) (t t' : Thread n Lk Chan) : Prop where
  locks : Disciplined i op (threadHolds i t) (threadHolds i t')
  state : Accounted op (threadExpects t) (threadExpects t')
  nested : t'.yield ≠ none → holds i t'.pc = []

theorem yield_legal {at_ : YieldAt} {t : Thread n Lk Chan} (inside : t.yield = some at_)
    (free : holds i t.pc = []) :
    ThreadLegal i (yieldCode i at_) t { t with yield := at_.next } := by
  have ordinary := expects_of_free free
  constructor
  · cases at_ <;> simp [yieldCode, YieldAt.next, Disciplined, threadHolds, inside, free]
  · cases at_ <;> simp [yieldCode, YieldAt.next, Accounted, threadExpects, inside, ordinary]
  · exact fun _ => free

theorem Next.legal (next : Next s c i op t)
    (nested : (s.thread i).yield ≠ none → holds i (s.thread i).pc = [])
    (count : s.noff c = (threadHolds i (s.thread i)).length) :
    ThreadLegal i op (s.thread i) t := by
  cases next with
  | yield inside => exact yield_legal inside (nested (by simp [inside]))
  | timer outside enabled =>
    have free : holds i (s.thread i).pc = [] := by
      have none : threadHolds i (s.thread i) = holds i (s.thread i).pc := by
        simp [threadHolds, outside]
      rw [← none, ← List.length_eq_zero_iff, ← count]
      exact enabled
    constructor
    · simp [Disciplined, threadHolds, outside, free]
    · simp [Accounted, threadExpects, outside, expects_of_free free]
    · exact fun _ => free
  | code outside next =>
    have legal := code_legal next
    constructor
    · simpa [threadHolds, outside] using legal.locks
    · simpa [threadExpects, outside] using legal.state
    · intro inside
      simp [outside] at inside

def Executing (s : Machine n CPU Lk Chan) (i : Fin n) : Prop := ∃ c, s.cpu c = .running i

/-- The state that a process has at a place. -/
def Phase (executing : Prop) : Expect → ProcState → Prop
  | .running, st => executing ∧ st = .running
  | .leaving st', st => executing ∧ st = st'
  | .back, st => executing ∧ st = .running ∨ ¬ executing ∧ st ≠ .running
  | .gone, st => ¬ executing ∧ st = .zombie

/-- A process asleep is in a call of `sleep` on its channel, between the store and the
return of `swtch`. -/
def Asleep (t : Thread n Lk Chan) (chan : Option Chan) : Prop :=
  ∃ ch lk at_, t = ⟨.sleep ch lk at_, none⟩ ∧ chan = some ch ∧ (at_ = .sched ∨ at_ = .tidy)

structure Sound (s : Machine n CPU Lk Chan) : Prop where
  ledger : Ledger s.lock s.noff (heldOn s)
  alone : ∀ c d i, s.cpu c = .running i → s.cpu d = .running i → c = d
  phase : ∀ i, Phase (Executing s i) (threadExpects (s.thread i)) (s.state i)
  nested : ∀ i, (s.thread i).yield ≠ none → holds i (s.thread i).pc = []
  asleep : ∀ i, s.state i = .sleeping → Asleep (s.thread i) (s.chan i)

theorem boot_sound (up : Fin n → Bool) (pid : Fin n → Int) :
    Sound (boot up pid : Machine n CPU Lk Chan) where
  ledger := LockLedger.empty
  alone c d i h := by simp [boot] at h
  phase i := by
    right
    cases h : up i <;> simp [boot, Executing, h]
  nested i h := by simp [boot] at h
  asleep i h := by
    cases up' : up i <;> simp [boot, up'] at h

theorem heldOn_running (on : s.cpu c = .running i) :
    heldOn s c = threadHolds i (s.thread i) := by
  simp [heldOn, on]

/-- A process that has stored the state in which it leaves the CPU holds its lock. -/
theorem leaving_holds {st : ProcState} (h : threadExpects t = .leaving st) :
    .proc i ∈ threadHolds i t := by
  obtain ⟨pc, yield⟩ := t
  cases yield with
  | some at_ => cases at_ <;> simp_all [threadExpects, threadHolds]
  | none =>
    cases pc with
    | sleep chan lk at_ => cases at_ <;> simp_all [threadExpects, threadHolds, expects, holds]
    | exit lk at_ => cases at_ <;> simp_all [threadExpects, threadHolds, expects, holds]
    | _ => simp_all [threadExpects, expects]

/-- Between `swtch` to the scheduler and back a thread counts on its lock only. -/
theorem back_holds (h : threadExpects t = .back) : threadHolds i t = [.proc i] := by
  obtain ⟨pc, yield⟩ := t
  cases yield with
  | some at_ => cases at_ <;> simp_all [threadExpects, threadHolds]
  | none =>
    cases pc with
    | sleep chan lk at_ => cases at_ <;> simp_all [threadExpects, threadHolds, expects, holds]
    | exit lk at_ => cases at_ <;> simp_all [threadExpects, expects]
    | forkret => rfl
    | _ => simp_all [threadExpects, expects]

/-- Whoever has the lock of a process that is not `RUNNING` and does not execute it itself,
knows that it does not execute. -/
theorem Sound.parked (sound : Sound s) (lock : .proc j ∈ heldOn s c)
    (other : s.cpu c ≠ .running j) (st : s.state j ≠ .running) : ¬ Executing s j := by
  rintro ⟨d, on⟩
  have phase := sound.phase j
  have executing : Executing s j := ⟨d, on⟩
  cases expect : threadExpects (s.thread j) with
  | running =>
    rw [expect] at phase
    exact st phase.2
  | back =>
    rw [expect] at phase
    rcases phase with ⟨-, running⟩ | ⟨off, -⟩
    · exact st running
    · exact off executing
  | gone =>
    rw [expect] at phase
    exact phase.1 executing
  | leaving st' =>
    have held : .proc j ∈ heldOn s d := by
      rw [heldOn_running on]
      exact leaving_holds expect
    obtain rfl := sound.ledger.exclusive lock held
    exact other on

/-- The state of an executing process, unless it is on its way back or leaving. -/
theorem Sound.executing (sound : Sound s) (on : s.cpu c = .running i) :
    (threadExpects (s.thread i) = .running ∨ threadExpects (s.thread i) = .back) ∧
        s.state i = .running ∨
      ∃ st, threadExpects (s.thread i) = .leaving st ∧ s.state i = st := by
  have phase := sound.phase i
  have executing : Executing s i := ⟨c, on⟩
  cases expect : threadExpects (s.thread i) with
  | running =>
    rw [expect] at phase
    exact Or.inl ⟨Or.inl rfl, phase.2⟩
  | back =>
    rw [expect] at phase
    rcases phase with ⟨-, running⟩ | ⟨off, -⟩
    · exact Or.inl ⟨Or.inr rfl, running⟩
    · exact absurd executing off
  | leaving st =>
    rw [expect] at phase
    exact Or.inr ⟨st, rfl, phase.2⟩
  | gone =>
    rw [expect] at phase
    exact absurd executing phase.1

/-- A statement that leaves the state of its process alone. -/
theorem Sound.phase_kept (sound : Sound s) (on : s.cpu c = .running i)
    (kept : threadExpects (s.thread i) = threadExpects t ∨
      threadExpects (s.thread i) = .back ∧ threadExpects t = .running) :
    Phase True (threadExpects t) (s.state i) := by
  rcases sound.executing on with ⟨place, running⟩ | ⟨st, place, same⟩
  · rcases kept with eq | ⟨-, eq⟩
    · rw [← eq]
      rcases place with place | place <;> simp [place, Phase, running]
    · simp [eq, Phase, running]
  · rcases kept with eq | ⟨eq, -⟩
    · simp [← eq, place, Phase, same]
    · simp [eq] at place

/-- A process that executes and is asleep is about to call `sched`. -/
theorem Sound.at_sched (sound : Sound s) (on : s.cpu c = .running i)
    (st : s.state i = .sleeping) :
    ∃ chan lk, s.thread i = ⟨.sleep chan lk .sched, none⟩ ∧ s.chan i = some chan := by
  obtain ⟨chan, lk, at_, thread, channel, place⟩ := sound.asleep i st
  rcases place with rfl | rfl
  · exact ⟨chan, lk, thread, channel⟩
  · rcases sound.executing on with ⟨-, running⟩ | ⟨st', place, -⟩
    · simp [st] at running
    · simp [thread, threadExpects, expects] at place

theorem Sound.legal (sound : Sound s) (on : s.cpu c = .running i) (next : Next s c i op t) :
    ThreadLegal i op (s.thread i) t :=
  next.legal (sound.nested i) (by rw [sound.ledger.counts c, heldOn_running on])

/-- `sched` is entered with the process's lock and no other, and not `RUNNING`. -/
theorem Sound.sched_entered (sound : Sound s) (on : s.cpu c = .running i)
    (next : Next s c i .sched t) :
    (∀ l, s.lock l = some c ↔ l = .proc i) ∧ s.noff c = 1 ∧ s.state i ≠ .running := by
  have legal := sound.legal on next
  have held : heldOn s c = [.proc i] := (heldOn_running on).trans legal.locks.1
  obtain ⟨st, leaving, notRunning, -⟩ := legal.state
  have phase := sound.phase i
  rw [leaving] at phase
  refine ⟨fun l => ?_, ?_, ?_⟩
  · rw [sound.ledger.owner, held, List.mem_singleton]
  · rw [sound.ledger.counts, held, List.length_singleton]
  · rw [phase.2]
    exact notRunning

theorem Next.asleep (sound : Sound s) (on : s.cpu c = .running i) (next : Next s c i op t)
    (st : s.state i = .sleeping) : op = .sched ∧ Asleep t (s.chan i) := by
  obtain ⟨chan, lk, thread, channel⟩ := sound.at_sched on st
  cases next with
  | yield inside => simp [thread] at inside
  | timer outside enabled =>
    have count := sound.ledger.counts c
    rw [enabled, heldOn_running on] at count
    simp [thread, threadHolds, holds] at count
  | @code a op pc outside next =>
    rw [thread] at next ⊢
    cases a <;> simp only [SleepWakeup.code, sleepCode, reduceCtorEq, Option.some.injEq] at next
    obtain ⟨rfl, rfl⟩ := Prod.mk.inj next
    exact ⟨rfl, chan, lk, .tidy, rfl, channel, Or.inr rfl⟩

/-- A store of `SLEEPING` is the one in `sleep`. -/
theorem Next.store {st : ProcState} {chan : Option Chan} (next : Next s c i (.store st chan) t) :
    st = .sleeping ∧ Asleep t chan ∨ st ≠ .sleeping ∧ chan = none := by
  generalize hop : (Op.store st chan : Op n Lk Chan) = op at next
  cases next with
  | @yield at_ inside =>
    cases at_ <;> simp only [yieldCode, reduceCtorEq] at hop
    obtain ⟨rfl, rfl⟩ := Op.store.inj hop
    exact Or.inr ⟨by decide, rfl⟩
  | timer => simp at hop
  | @code a _ pc outside next =>
    subst hop
    rcases code_store next with ⟨ch, lk, rfl, rfl, rfl⟩ | ⟨rfl, rfl⟩
    · exact Or.inl ⟨rfl, ch, lk, .sched, by simp [outside], rfl, Or.inl rfl⟩
    · exact Or.inr ⟨by decide, rfl⟩

theorem Sound.leaving_state (sound : Sound s) {st : ProcState}
    (leaving : threadExpects (s.thread i) = .leaving st) : s.state i = st := by
  have phase := sound.phase i
  rw [leaving] at phase
  exact phase.2

/-- What a statement leaves alone: other slots, but that a sleeping one may be roused. -/
structure Others (s u : Machine n CPU Lk Chan) (i : Fin n) : Prop where
  chan : ∀ j, j ≠ i → u.chan j = s.chan j
  state : ∀ j, j ≠ i → u.state j = s.state j ∨
    s.state j = .sleeping ∧ u.state j = .runnable ∧ ¬ Executing s j

variable [DecidableEq CPU]

/-- Where no thread moves, the locks on the other CPUs stay. -/
theorem heldOn_frame {l : List (Lock n Lk)} (cpu : ∀ d, d ≠ c → u.cpu d = s.cpu d)
    (thread : ∀ d j, d ≠ c → s.cpu d = .running j → u.thread j = s.thread j)
    (now : heldOn u c = l) : heldOn u = Function.update (heldOn s) c l := by
  funext d
  by_cases own : d = c
  · subst own
    simpa using now
  · rw [Function.update_of_ne own]
    have same := cpu d own
    cases control : s.cpu d with
    | running j => simp [heldOn, same, control, thread d j own control]
    | scan | holding | returned => simp [heldOn, same, control]

/-- A process executes elsewhere, whatever a CPU does that neither came from it nor goes
to it. -/
theorem running_update {k : Control n} (was : s.cpu c ≠ .running j) (now : k ≠ .running j)
    (d : CPU) : Function.update s.cpu c k d = .running j ↔ s.cpu d = .running j := by
  by_cases own : d = c
  · simp [own, was, now]
  · simp [own]

/-- A statement after which the process still executes. -/
theorem Sound.proceed (sound : Sound s) (on : s.cpu c = .running i) (cpu : u.cpu = s.cpu)
    (thread : u.thread = Function.update s.thread i t)
    (ledger : Ledger u.lock u.noff (Function.update (heldOn s) c (threadHolds i t)))
    (phase : Phase True (threadExpects t) (u.state i))
    (nested : t.yield ≠ none → holds i t.pc = [])
    (asleep : u.state i = .sleeping → Asleep t (u.chan i)) (others : Others s u i) : Sound u := by
  have same (j : Fin n) : Executing u j ↔ Executing s j := by simp [Executing, cpu]
  have executing : Executing u i := ⟨c, cpu ▸ on⟩
  constructor
  · have held : heldOn u = Function.update (heldOn s) c (threadHolds i t) := by
      apply heldOn_frame
      · exact fun d _ => congrFun cpu d
      · intro d j own control
        have apart : j ≠ i := by
          rintro rfl
          exact own (sound.alone d c j control on)
        rw [thread, Function.update_of_ne apart]
      · simp [heldOn, cpu, on, thread]
    rw [held]
    exact ledger
  · intro c d j
    rw [cpu]
    exact sound.alone c d j
  · intro j
    by_cases own : j = i
    · subst own
      simpa [thread, executing] using phase
    · have before := sound.phase j
      rw [thread, Function.update_of_ne own]
      rcases others.state j own with kept | ⟨was, now, parked⟩
      · simpa only [same, kept] using before
      · rw [now]
        cases expect : threadExpects (s.thread j) <;> rw [expect, was] at before <;>
          simp_all [Phase]
  · intro j
    by_cases own : j = i
    · subst own
      simpa [thread] using nested
    · simpa [thread, own] using sound.nested j
  · intro j st
    by_cases own : j = i
    · subst own
      simpa [thread] using asleep st
    · rw [thread, Function.update_of_ne own, others.chan j own]
      rcases others.state j own with kept | ⟨-, now, -⟩
      · exact sound.asleep j (kept ▸ st)
      · simp [now] at st

/-- A statement that touches neither state nor channel of a slot. -/
theorem Sound.proceed_kept (sound : Sound s) (on : s.cpu c = .running i) (next : Next s c i op t)
    (legal : ThreadLegal i op (s.thread i) t) (plain : op ≠ .sched)
    (kept : threadExpects (s.thread i) = threadExpects t ∨
      threadExpects (s.thread i) = .back ∧ threadExpects t = .running)
    (cpu : u.cpu = s.cpu) (thread : u.thread = Function.update s.thread i t)
    (ledger : Ledger u.lock u.noff (Function.update (heldOn s) c (threadHolds i t)))
    (state : u.state = s.state) (chan : u.chan = s.chan) : Sound u := by
  apply sound.proceed on cpu thread ledger
  · rw [state]
    exact sound.phase_kept on kept
  · exact legal.nested
  · rw [state]
    intro st
    exact absurd (next.asleep sound on st).1 plain
  · exact ⟨fun _ _ => by rw [chan], fun _ _ => Or.inl (by rw [state])⟩

/-- A test and store for another slot, by a process that holds the slot's lock. -/
theorem Sound.proceed_rouse (sound : Sound s) (on : s.cpu c = .running i)
    (next : Next s c i op t) (legal : ThreadLegal i op (s.thread i) t) (plain : op ≠ .sched)
    (kept : threadExpects (s.thread i) = threadExpects t ∨
      threadExpects (s.thread i) = .back ∧ threadExpects t = .running) {p : Fin n}
    (lock : .proc p ∈ heldOn s c) (asleep : s.state p = .sleeping)
    (cpu : u.cpu = s.cpu) (thread : u.thread = Function.update s.thread i t)
    (ledger : Ledger u.lock u.noff (Function.update (heldOn s) c (threadHolds i t)))
    (state : u.state = Function.update s.state p .runnable) (chan : u.chan = s.chan) :
    Sound u := by
  have apart : i ≠ p := by
    rintro rfl
    exact plain (next.asleep sound on asleep).1
  have own : u.state i = s.state i := by rw [state, Function.update_of_ne apart]
  have parked : ¬ Executing s p :=
    sound.parked lock (by simp [on, apart]) (by simp [asleep])
  apply sound.proceed on cpu thread ledger
  · rw [own]
    exact sound.phase_kept on kept
  · exact legal.nested
  · rw [own]
    intro st
    exact absurd (next.asleep sound on st).1 plain
  · refine ⟨fun _ _ => by rw [chan], fun j other => ?_⟩
    by_cases this : j = p
    · subst this
      exact Or.inr ⟨asleep, by simp [state], parked⟩
    · exact Or.inl (by simp [state, this])

theorem sched_ok (h : sched s c i = .ok u) :
    u = { s with cpu := Function.update s.cpu c (.returned i) } := by
  unfold sched at h
  split at h
  · cases h
  · split at h
    · cases h
    · split at h
      · cases h
      · cases h
        rfl

theorem Sound.sched (sound : Sound s) (on : s.cpu c = .running i) (next : Next s c i .sched t)
    (legal : ThreadLegal i .sched (s.thread i) t) :
    Sound (setThread { s with cpu := Function.update s.cpu c (.returned i) } i t) := by
  obtain ⟨before, after⟩ := legal.locks
  obtain ⟨st, leaving, notRunning, arrives⟩ := legal.state
  have gone : ¬ ∃ d, Function.update s.cpu c (.returned i) d = .running i := by
    rintro ⟨d, running⟩
    by_cases own : d = c
    · simp [own] at running
    · rw [Function.update_of_ne own] at running
      exact own (sound.alone d c i running on)
  have same (j : Fin n) (other : j ≠ i) (d : CPU) :
      Function.update s.cpu c (.returned i) d = .running j ↔ s.cpu d = .running j :=
    running_update (by simp [on, other.symm]) (by simp) d
  have stored : s.state i = st := sound.leaving_state leaving
  constructor
  · have held : heldOn (setThread { s with cpu := Function.update s.cpu c (.returned i) } i t) =
        Function.update (heldOn s) c [.proc i] := by
      apply heldOn_frame
      · intro d own
        simp [setThread, own]
      · intro d j own control
        have apart : j ≠ i := by
          rintro rfl
          exact own (sound.alone d c j control on)
        simp [setThread, apart]
      · simp [heldOn, setThread]
    rw [held]
    apply sound.ledger.reorder
    rw [heldOn_running on, before]
  · intro d e j running running'
    by_cases own : j = i
    · subst own
      exact absurd ⟨d, running⟩ gone
    · exact sound.alone d e j ((same j own d).mp running) ((same j own e).mp running')
  · intro j
    by_cases own : j = i
    · subst own
      show Phase (∃ d, Function.update s.cpu c (.returned j) d = .running j)
        (threadExpects (Function.update s.thread j t j)) (s.state j)
      rw [Function.update_self, stored]
      rcases arrives with back | ⟨forever, zombie⟩
      · rw [back]
        exact Or.inr ⟨gone, notRunning⟩
      · rw [forever]
        exact ⟨gone, zombie⟩
    · show Phase (∃ d, Function.update s.cpu c (.returned i) d = .running j)
        (threadExpects (Function.update s.thread i t j)) (s.state j)
      simp only [Function.update_of_ne own, same j own]
      exact sound.phase j
  · intro j
    by_cases own : j = i
    · subst own
      simpa [setThread] using legal.nested
    · simpa [setThread, own] using sound.nested j
  · intro j asleep
    by_cases own : j = i
    · subst own
      simpa [setThread] using (next.asleep sound on asleep).2
    · simpa [setThread, own] using sound.asleep j asleep

/-- A step of the scheduler that switches to no process. -/
theorem Sound.turn (sound : Sound s) {k : Control n} {l : List (Lock n Lk)}
    (off : ∀ i, s.cpu c ≠ .running i) (off' : ∀ i, k ≠ .running i)
    (cpu : u.cpu = Function.update s.cpu c k) (thread : u.thread = s.thread)
    (state : u.state = s.state) (chan : u.chan = s.chan) (now : heldOn u c = l)
    (ledger : Ledger u.lock u.noff (Function.update (heldOn s) c l)) : Sound u := by
  have same (d : CPU) (i : Fin n) : u.cpu d = .running i ↔ s.cpu d = .running i := by
    rw [cpu]
    exact running_update (off i) (off' i) d
  have executing (i : Fin n) : Executing u i ↔ Executing s i := by simp [Executing, same]
  constructor
  · have held : heldOn u = Function.update (heldOn s) c l := by
      refine heldOn_frame (fun d own => ?_) (fun _ j _ _ => congrFun thread j) now
      rw [cpu, Function.update_of_ne own]
    rw [held]
    exact ledger
  · intro d e i
    rw [same, same]
    exact sound.alone d e i
  · intro i
    rw [executing, thread, state]
    exact sound.phase i
  · intro i
    rw [thread]
    exact sound.nested i
  · intro i
    rw [thread, state, chan]
    exact sound.asleep i

/-- `swtch` to a runnable process whose lock the scheduler holds. -/
theorem Sound.dispatch (sound : Sound s) {p : Fin n} (on : s.cpu c = .holding p)
    (runnable : s.state p = .runnable) :
    Sound { s with
      state := Function.update s.state p .running
      cpu := Function.update s.cpu c (.running p) } := by
  have lock : .proc p ∈ heldOn s c := by simp [heldOn, on]
  have parked : ¬ Executing s p := sound.parked lock (by simp [on]) (by simp [runnable])
  have place : threadExpects (s.thread p) = .back := by
    have phase := sound.phase p
    cases expect : threadExpects (s.thread p) <;> rw [expect, runnable] at phase <;>
      simp_all [Phase]
  have same (j : Fin n) (other : j ≠ p) (d : CPU) :
      Function.update s.cpu c (.running p) d = .running j ↔ s.cpu d = .running j :=
    running_update (by simp [on]) (by simp [other.symm]) d
  constructor
  · have held : heldOn { s with
        state := Function.update s.state p .running
        cpu := Function.update s.cpu c (.running p) } =
        Function.update (heldOn s) c [.proc p] := by
      refine heldOn_frame (fun d own => Function.update_of_ne own _ _) (fun _ _ _ _ => rfl) ?_
      simpa [heldOn] using back_holds place
    rw [held]
    apply sound.ledger.reorder
    simp [heldOn, on]
  · intro d e j running running'
    by_cases this : j = p
    · subst this
      have only (d : CPU) (h : Function.update s.cpu c (.running j) d = .running j) : d = c := by
        by_contra own
        rw [Function.update_of_ne own] at h
        exact parked ⟨d, h⟩
      exact (only d running).trans (only e running').symm
    · exact sound.alone d e j ((same j this d).mp running) ((same j this e).mp running')
  · intro j
    by_cases this : j = p
    · subst this
      have executes : Executing { s with
          state := Function.update s.state j .running
          cpu := Function.update s.cpu c (.running j) } j := ⟨c, by simp⟩
      simp [place, Phase, executes]
    · have executes : Executing { s with
          state := Function.update s.state p .running
          cpu := Function.update s.cpu c (.running p) } j ↔ Executing s j := by
        simp [Executing, same j this]
      rw [executes]
      simpa [this] using sound.phase j
  · exact sound.nested
  · intro j asleep
    by_cases this : j = p
    · simp [this] at asleep
    · exact sound.asleep j (by simpa [this] using asleep)

variable [DecidableEq Lk]

theorem acquire_ok {l : Lock n Lk} (h : acquire s c l = .ok u) : s.lock l = none ∧
    u = { s with
      lock := Function.update s.lock l (some c)
      noff := Function.update s.noff c (s.noff c + 1) } := by
  unfold acquire at h
  split at h
  · cases h
  · split at h
    · cases h
    · rename_i free
      cases h
      exact ⟨not_not.mp free, rfl⟩

theorem release_ok {l : Lock n Lk} (h : release s c l = .ok u) :
    u = { s with
      lock := Function.update s.lock l none
      noff := Function.update s.noff c (s.noff c - 1) } := by
  unfold release at h
  split at h
  · cases h
  · split at h
    · cases h
    · cases h
      rfl

variable [DecidableEq Chan] {e : Event CPU Lk Chan}

theorem process_cases (s : Machine n CPU Lk Chan) (c : CPU) (i : Fin n) (a : Choice Lk Chan) :
    process s c i a = .error .disabled ∨
      ∃ op t, Next s c i op t ∧
        process s c i a = (perform s c i op).map fun u => setThread u i t := by
  unfold process
  cases inside : (s.thread i).yield with
  | some at_ =>
    refine Or.inr ⟨_, _, .yield inside, ?_⟩
    dsimp only
    cases perform s c i (yieldCode i at_) <;> rfl
  | none =>
    cases timer : a.isTimer with
    | true =>
      by_cases enabled : s.noff c = 0
      · refine Or.inr ⟨_, _, .timer inside enabled, ?_⟩
        simp [enabled, perform, Except.map]
      · simp [enabled]
    | false =>
      cases next : code s.pid i (s.thread i).pc a with
      | none => simp
      | some found =>
        obtain ⟨op, pc⟩ := found
        refine Or.inr ⟨op, _, .code inside next, ?_⟩
        dsimp only
        cases perform s c i op <;> rfl

/-- The statements of a process keep the invariant. -/
theorem Sound.perform (sound : Sound s) (on : s.cpu c = .running i) (next : Next s c i op t)
    (legal : ThreadLegal i op (s.thread i) t) (h : perform s c i op = .ok u) :
    Sound (setThread u i t) := by
  have held := heldOn_running on
  have level {l : List (Lock n Lk)} (same : l = threadHolds i (s.thread i)) :
      Ledger s.lock s.noff (Function.update (heldOn s) c l) := by
    rw [same, ← held, Function.update_eq_self]
    exact sound.ledger
  cases op with
  | acquire l =>
    obtain ⟨free, rfl⟩ := acquire_ok h
    refine sound.proceed_kept on next legal (by simp) legal.state rfl rfl ?_ rfl rfl
    exact sound.ledger.acquire free (by rw [held]; exact legal.locks.2)
  | release l history =>
    obtain ⟨v, hv, hu⟩ := Outcomes.bind_eq_ok.mp h
    rw [← Outcomes.pure_eq_ok.mp hu, release_ok hv]
    refine sound.proceed_kept on next legal (by simp) legal.state rfl rfl ?_ rfl rfl
    exact sound.ledger.release (by rw [held]; exact legal.locks)
  | store st chan =>
    cases h
    obtain ⟨place, place', -⟩ := legal.state
    refine sound.proceed on rfl rfl (level legal.locks.2) ?_ legal.nested ?_ ?_
    · simp [setThread, place', Phase]
    · intro asleep
      rcases next.store with ⟨rfl, sleeps⟩ | ⟨other, -⟩
      · have some : chan ≠ none := by
          obtain ⟨ch, -, -, -, rfl, -⟩ := sleeps
          simp
        simpa [setThread, some] using sleeps
      · simp [setThread, other] at asleep
    · constructor
      · intro j other
        by_cases none : chan = none
        · simp [setThread, none]
        · simp [setThread, none, other]
      · intro j other
        simp [setThread, other]
  | clearChan =>
    cases h
    obtain ⟨place, place'⟩ := legal.state
    have running : s.state i = .running := by
      rcases sound.executing on with ⟨-, running⟩ | ⟨st, leaving, -⟩
      · exact running
      · simp [place] at leaving
    refine sound.proceed on rfl rfl (level legal.locks.2) ?_ legal.nested ?_ ?_
    · simp [setThread, place', Phase, running]
    · intro asleep
      simp [setThread, running] at asleep
    · exact ⟨fun j other => by simp [setThread, other], fun _ _ => Or.inl rfl⟩
  | sched =>
    rw [sched_ok h]
    exact sound.sched on next legal
  | wake p chan =>
    cases h
    have lock : .proc p ∈ heldOn s c := held ▸ legal.locks.1
    split
    · rename_i found
      exact sound.proceed_rouse on next legal (by simp) legal.state lock found.1 rfl rfl
        (level legal.locks.2) rfl rfl
    · exact sound.proceed_kept on next legal (by simp) legal.state rfl rfl
        (level legal.locks.2) rfl rfl
  | strike p pid =>
    cases h
    have lock : .proc p ∈ heldOn s c := held ▸ legal.locks.1
    split
    · dsimp only
      split
      · rename_i found
        exact sound.proceed_rouse on next legal (by simp) legal.state lock found rfl rfl
          (level legal.locks.2) rfl rfl
      · exact sound.proceed_kept on next legal (by simp) legal.state rfl rfl
          (level legal.locks.2) rfl rfl
    · exact sound.proceed_kept on next legal (by simp) legal.state rfl rfl
        (level legal.locks.2) rfl rfl
  | mark m =>
    cases h
    exact sound.proceed_kept on next legal (by simp) legal.state rfl rfl
      (level legal.locks) rfl rfl
  | skip =>
    cases h
    exact sound.proceed_kept on next legal (by simp) legal.state rfl rfl
      (level legal.locks) rfl rfl
  | panic => cases h

theorem sound_step (sound : Sound s) (h : step s e = .ok u) : Sound u := by
  unfold SleepWakeup.step at h
  cases on : s.cpu e.cpu with
  | scan p =>
    rw [on] at h
    dsimp only at h
    have off : ∀ i, s.cpu e.cpu ≠ .running i := by simp [on]
    have empty : heldOn s e.cpu = [] := by simp [heldOn, on]
    split at h
    · rename_i inside
      obtain ⟨v, hv, hu⟩ := Outcomes.bind_eq_ok.mp h
      obtain ⟨free, rfl⟩ := acquire_ok hv
      rw [← Outcomes.pure_eq_ok.mp hu]
      refine sound.turn (l := [.proc ⟨p, inside⟩]) off (by simp) rfl rfl rfl rfl
        (by simp [heldOn]) ?_
      exact sound.ledger.acquire free (by simp [empty])
    · cases h
      refine sound.turn (l := []) off (by simp) rfl rfl rfl rfl (by simp [heldOn]) ?_
      rw [← empty, Function.update_eq_self]
      exact sound.ledger
  | holding p =>
    rw [on] at h
    dsimp only at h
    split at h
    · rename_i runnable
      cases h
      exact sound.dispatch on runnable
    · obtain ⟨v, hv, hu⟩ := Outcomes.bind_eq_ok.mp h
      rw [← Outcomes.pure_eq_ok.mp hu, release_ok hv]
      refine sound.turn (l := []) (by simp [on]) (by simp) rfl rfl rfl rfl (by simp [heldOn]) ?_
      exact sound.ledger.release (by simp [heldOn, on])
  | returned p =>
    rw [on] at h
    obtain ⟨v, hv, hu⟩ := Outcomes.bind_eq_ok.mp h
    rw [← Outcomes.pure_eq_ok.mp hu, release_ok hv]
    refine sound.turn (l := []) (by simp [on]) (by simp) rfl rfl rfl rfl (by simp [heldOn]) ?_
    exact sound.ledger.release (by simp [heldOn, on])
  | running i =>
    rw [on] at h
    rcases process_cases s e.cpu i e.choice with off | ⟨op, t, next, same⟩
    · simp [off] at h
    · simp only [same] at h
      obtain ⟨v, ran, rfl⟩ := Outcomes.map_eq_ok.mp h
      exact sound.perform on next (sound.legal on next) ran

omit [DecidableEq Chan] in
theorem acquire_panics {l : Lock n Lk} (sound : Sound s) (free : l ∉ heldOn s c) :
    acquire s c l ≠ .error .panic := by
  have other : s.lock l ≠ some c := (sound.ledger.owner l c).not.mpr free
  unfold acquire
  rw [if_neg other]
  split <;> simp

omit [DecidableEq Chan] in
theorem release_panics {l : Lock n Lk} (sound : Sound s) (held : l ∈ heldOn s c) :
    release s c l ≠ .error .panic := by
  have mine : s.lock l = some c := (sound.ledger.owner l c).mpr held
  have some : ¬ s.noff c < 1 := by
    rw [sound.ledger.counts c]
    have := List.length_pos_of_mem held
    omega
  unfold release
  simp [mine, some]

theorem perform_panics (sound : Sound s) (on : s.cpu c = .running i) (next : Next s c i op t) :
    perform s c i op ≠ .error .panic := by
  have legal := sound.legal on next
  have held := heldOn_running on
  cases op with
  | acquire l => exact acquire_panics sound (by rw [held]; exact legal.locks.1)
  | release l history =>
    have mine : l ∈ heldOn s c := by
      rw [held]
      exact legal.locks.mem_iff.mpr List.mem_cons_self
    exact Outcomes.bind_ne_error (release_panics sound mine) fun _ => nofun
  | sched =>
    obtain ⟨owns, one, notRunning⟩ := sound.sched_entered on next
    simp [SleepWakeup.perform, SleepWakeup.sched, (owns _).mpr rfl, one, notRunning]
  | panic =>
    have phase := sound.phase i
    rw [legal.state] at phase
    exact absurd ⟨c, on⟩ phase.1
  | store | clearChan | wake | strike | mark | skip => simp [SleepWakeup.perform]

theorem step_panics (sound : Sound s) : step s e ≠ .error .panic := by
  unfold SleepWakeup.step
  cases on : s.cpu e.cpu with
  | scan p =>
    dsimp only
    split
    · rename_i h
      have free : .proc ⟨p, h⟩ ∉ heldOn s e.cpu := by simp [heldOn, on]
      exact Outcomes.bind_ne_error (acquire_panics sound free) fun _ => nofun
    · simp
  | holding p =>
    dsimp only
    split
    · simp
    · have held : .proc p ∈ heldOn s e.cpu := by simp [heldOn, on]
      exact Outcomes.bind_ne_error (release_panics sound held) fun _ => nofun
  | returned p =>
    have held : .proc p ∈ heldOn s e.cpu := by simp [heldOn, on]
    exact Outcomes.bind_ne_error (release_panics sound held) fun _ => nofun
  | running i =>
    rcases process_cases s e.cpu i e.choice with off | ⟨op, t, next, same⟩
    · simp [off]
    · simp only [same]
      exact Outcomes.map_ne_error (perform_panics sound on next)

end LockDiscipline
