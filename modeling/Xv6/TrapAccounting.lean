import Xv6.FamilyTree

/-!
# The counters of dispatches, traps and preemptions

The scheduler of `project1.b` counts dispatches, `sleep` and both trap handlers
count the ways in which a process gives up the CPU, and `usertrap` counts traps
by kind. The books balance whenever a process is not running. The timer
interrupt in `kerneltrap` is a preemption that no counter of interrupts sees.
-/

namespace TrapAccounting

open ProcTable ProcessThreads ThreadMoves FamilyTree EventRuns Outcomes

/-- The process is on a CPU, or left it for good. -/
def standing (state : ProcState) : BitVec 32 := if state = .running ∨ state = .zombie then 1 else 0

/-- The process is in `exit`, and its slot is not free. -/
def Doomed (c : Cell) : Prop :=
  c.proc.state ≠ .unused ∧ (c.thread = .gone ∨ ∃ status fd, c.thread = .exiting status fd)

/-- What `freeproc` leaves, and `allocproc` hands out. -/
structure Fresh (c : Cell) : Prop where
  runCount : c.proc.runCount = 0
  systemcallCount : c.proc.systemcallCount = 0
  interruptCount : c.proc.interruptCount = 0
  preemptCount : c.proc.preemptCount = 0
  trapCount : c.proc.trapCount = 0
  sleepCount : c.proc.sleepCount = 0
  unexpected : c.unexpected = 0

structure Ledger (c : Cell) : Prop where
  runs : c.proc.runCount = c.proc.preemptCount + c.proc.sleepCount + standing c.proc.state
  traps : c.proc.trapCount =
    c.proc.systemcallCount + c.proc.interruptCount + BitVec.ofNat 32 c.unexpected
  once : c.unexpected = 0 ∨ c.unexpected = 1 ∧ Doomed c
  fresh : c.proc.state = .unused ∨ c.proc.state = .used → Fresh c

@[simp] theorem standing_running : standing .running = 1 := rfl
@[simp] theorem standing_zombie : standing .zombie = 1 := rfl
@[simp] theorem standing_runnable : standing .runnable = 0 := rfl
@[simp] theorem standing_sleeping : standing .sleeping = 0 := rfl
@[simp] theorem standing_used : standing .used = 0 := rfl
@[simp] theorem standing_unused : standing .unused = 0 := rfl

theorem standing_woken {state state' : ProcState}
    (h : state' = state ∨ state = .sleeping ∧ state' = .runnable) :
    standing state' = standing state := by
  rcases h with rfl | ⟨rfl, rfl⟩ <;> rfl

theorem Fresh.ledger {c : Cell} (h : Fresh c) (idle : standing c.proc.state = 0) : Ledger c := by
  obtain ⟨h1, h2, h3, h4, h5, h6, h7⟩ := h
  refine ⟨?_, ?_, Or.inl h7, fun _ => ⟨h1, h2, h3, h4, h5, h6, h7⟩⟩
  · simp [h1, h4, h6, idle]
  · simp [h2, h3, h5, h7]

variable {v : Version} {s t : Machine} {e : Event} {j : Slot} {c : Cell}

/-- A doomed process stays so until its slot is freed. -/
theorem Move.doomed (m : Move v s e j c) (h : Doomed (s.cell j)) :
    Doomed c ∨ c.lives = (s.cell j).lives + 1 := by
  by_cases empty : c.proc.state = .unused
  · rcases Move.vacated m empty with before | ⟨i, -, -, -, rfl⟩
    · exact absurd before h.1
    · exact Or.inr rfl
  · refine Or.inl ⟨empty, ?_⟩
    obtain ⟨used, thread⟩ := h
    cases m with
    | trapped call place trap =>
      have user : (s.cell j).thread = .user := place.2
      simp [user] at thread
    | returned call place =>
      have at_ : (s.cell j).thread = .syscall ∨ (s.cell j).thread = .forkret := place.2
      rcases at_ with at_ | at_ <;> simp [at_] at thread
    | forked call place | adopted call place | spawned call place | exits call place
    | files place =>
      rw [show (s.cell j).thread = _ from place.2] at thread
      simp at thread
    | allocated call place slot => exact absurd (unusedSlot_state slot) used
    | closes call place =>
      obtain ⟨fd', after⟩ := fileclose_thread place.2
      exact Or.inr ⟨_, _, after⟩
    | finished => exact Or.inl rfl
    | _ => exact thread

theorem Move.lives (m : Move v s e j c) : (s.cell j).lives ≤ c.lives := by
  cases m with
  | trapped call place trap => cases trap <;> exact le_rfl
  | closes => exact (fileclose_lives _ _ _).ge
  | freed => exact Nat.le_succ _
  | _ => exact le_rfl

theorem Move.runs (m : Move .project1b s e j c)
    (launched : ∀ i, s.At i (· = .adopted j) → (s.proc j).state = .used)
    (before : Ledger (s.cell j)) :
    c.proc.runCount = c.proc.preemptCount + c.proc.sleepCount + standing c.proc.state := by
  have runs : (s.proc j).runCount =
      (s.proc j).preemptCount + (s.proc j).sleepCount + standing (s.proc j).state := before.runs
  cases m with
  | passive parents states | killed call hit states =>
    simpa [standing_woken states] using runs
  | dispatched call runnable =>
    simp only [runnable, standing_runnable] at runs
    simp only [dispatched, swtchTo, setProc_proc, runs, standing_running]
    bv_omega
  | resumed call version => cases version
  | trapped call place trap =>
    have running : (s.proc j).state = .running := place.1
    cases trap with
    | preempted =>
      simp only [running, standing_running] at runs
      change (s.proc j).runCount = (s.proc j).preemptCount + 1 + (s.proc j).sleepCount + 0
      rw [runs]
      bv_omega
    | _ => exact runs
  | preempted call place =>
    simp only [place.1, standing_running] at runs
    change (s.proc j).runCount = (s.proc j).preemptCount + 1 + (s.proc j).sleepCount + 0
    rw [runs]
    bv_omega
  | slept call place =>
    simp only [place.1, standing_running] at runs
    change (s.proc j).runCount = (s.proc j).preemptCount + ((s.proc j).sleepCount + 1) + 0
    rw [runs]
    bv_omega
  | finished call place =>
    simp only [place.1, standing_running] at runs
    exact runs
  | launched call place =>
    simp only [launched _ place, standing_used] at runs
    exact runs
  | allocated call place slot =>
    simp only [show (s.proc j).state = .unused from unusedSlot_state slot,
      standing_unused] at runs
    exact runs
  | refused call slot freed =>
    obtain ⟨q, rfl⟩ := freed
    rfl
  | freed => rfl
  | closes =>
    rw [fileclose_proc]
    exact runs
  | _ => exact runs

theorem Move.traps (m : Move v s e j c) (before : Ledger (s.cell j)) :
    c.proc.trapCount =
      c.proc.systemcallCount + c.proc.interruptCount + BitVec.ofNat 32 c.unexpected := by
  have traps : (s.proc j).trapCount = (s.proc j).systemcallCount + (s.proc j).interruptCount +
      BitVec.ofNat 32 (s.cell j).unexpected := before.traps
  cases m with
  | trapped call place trap =>
    cases trap with
    | call | killedCall =>
      change (s.proc j).trapCount + 1 = (s.proc j).systemcallCount + 1 +
        (s.proc j).interruptCount + BitVec.ofNat 32 (s.cell j).unexpected
      rw [traps]
      bv_omega
    | unexpected =>
      change (s.proc j).trapCount + 1 = (s.proc j).systemcallCount + (s.proc j).interruptCount +
        BitVec.ofNat 32 ((s.cell j).unexpected + 1)
      rw [traps, BitVec.ofNat_add]
      bv_omega
    | killed | preempted | device =>
      change (s.proc j).trapCount + 1 = (s.proc j).systemcallCount +
        ((s.proc j).interruptCount + 1) + BitVec.ofNat 32 (s.cell j).unexpected
      rw [traps]
      bv_omega
  | allocated call place slot =>
    exact traps
  | refused call slot freed =>
    obtain ⟨q, rfl⟩ := freed
    have none := (before.fresh (Or.inl (unusedSlot_state slot))).unexpected
    simp [freeproc, none]
  | freed => rfl
  | dispatched => cases v <;> exact traps
  | closes =>
    rw [fileclose_proc, fileclose_unexpected]
    exact traps
  | _ => exact traps

theorem Move.once (m : Move v s e j c) (before : Ledger (s.cell j)) :
    c.unexpected = 0 ∨ c.unexpected = 1 ∧ Doomed c := by
  have same (h : c.unexpected = (s.cell j).unexpected) (alive : c.lives = (s.cell j).lives) :
      c.unexpected = 0 ∨ c.unexpected = 1 ∧ Doomed c := by
    rcases before.once with none | ⟨one, doomed⟩
    · exact Or.inl (h.trans none)
    · refine Or.inr ⟨h.trans one, ?_⟩
      rcases Move.doomed m doomed with still | later
      · exact still
      · omega
  cases m with
  | trapped call place trap =>
    cases trap with
    | unexpected =>
      have user : (s.cell j).thread = .user := place.2
      rcases before.once with none | ⟨one, -, gone | ⟨status, fd, exiting⟩⟩
      · refine Or.inr ⟨by simp [none], ?_, Or.inr ⟨-1, 0, rfl⟩⟩
        simp [show (s.cell j).proc.state = .running from place.1]
      · simp [user] at gone
      · simp [user] at exiting
    | _ => exact same rfl rfl
  | freed => exact Or.inl rfl
  | closes => exact same (fileclose_unexpected _ _ _) (fileclose_lives _ _ _)
  | _ => exact same rfl rfl

theorem Move.fresh (m : Move v s e j c) (before : Ledger (s.cell j))
    (h : c.proc.state = .unused ∨ c.proc.state = .used) : Fresh c := by
  cases m with
  | passive parents states | killed call hit states =>
    rcases states with rfl | ⟨-, rfl⟩
    · obtain ⟨h1, h2, h3, h4, h5, h6, h7⟩ := before.fresh h
      exact ⟨h1, h2, h3, h4, h5, h6, h7⟩
    · simp at h
  | stays => exact before.fresh h
  | parented =>
    obtain ⟨h1, h2, h3, h4, h5, h6, h7⟩ := before.fresh h
    exact ⟨h1, h2, h3, h4, h5, h6, h7⟩
  | allocated call place slot =>
    obtain ⟨h1, h2, h3, h4, h5, h6, h7⟩ := before.fresh (Or.inl (unusedSlot_state slot))
    exact ⟨h1, h2, h3, h4, h5, h6, h7⟩
  | refused call slot freed =>
    obtain ⟨q, rfl⟩ := freed
    have none := (before.fresh (Or.inl (unusedSlot_state slot))).unexpected
    exact ⟨rfl, rfl, rfl, rfl, rfl, rfl, none⟩
  | freed => exact ⟨rfl, rfl, rfl, rfl, rfl, rfl, rfl⟩
  | trapped call place trap =>
    have running : (s.cell j).proc.state = .running := place.1
    cases trap <;> simp [running] at h
  | dispatched => cases v <;> simp [dispatched, swtchTo] at h
  | returned call place | forked call place | adopted call place | spawned call place
  | exits call place | closes call place | files place =>
    have running : (s.cell j).proc.state = .running := place.1
    simp [running] at h
  | _ => simp [kerneltrap, ProcessThreads.yield, swtchTo] at h

theorem Move.ledger (m : Move .project1b s e j c)
    (launched : ∀ i, s.At i (· = .adopted j) → (s.proc j).state = .used)
    (before : Ledger (s.cell j)) : Ledger c :=
  ⟨Move.runs m launched before, Move.traps m before, Move.once m before, Move.fresh m before⟩

/-- What `fork` is filling is not touched by any scheduler. -/
theorem Move.used (m : Move .project1b s e j c) (before : (s.proc j).state = .used) :
    c.proc.state = .used ∨ ∃ i, e = .launch i ∧ s.At i (· = .adopted j) := by
  cases m with
  | passive parents states | killed call hit states =>
    rcases states with rfl | ⟨slept, -⟩
    · exact Or.inl before
    · simp [before] at slept
  | launched call place => exact Or.inr ⟨_, call, place⟩
  | dispatched call runnable => simp [before] at runnable
  | resumed call version => cases version
  | allocated call place slot | refused call slot =>
    have empty : (s.proc j).state = .unused := unusedSlot_state slot
    simp [before] at empty
  | freed call place slot =>
    have zombie : (s.proc j).state = .zombie := (zombieChild_state slot).2
    simp [before] at zombie
  | stays | parented => exact Or.inl before
  | trapped call place | preempted call place | returned call place | slept call place
  | forked call place | adopted call place | spawned call place | exits call place
  | closes call place | finished call place | files place =>
    exact absurd (before.symm.trans place.1) (by simp)

structure Balanced (s : Machine) : Prop where
  family : Family s
  ledger : ∀ j, Ledger (s.cell j)
  used : ∀ i np, Forks (s.thread i) np → (s.proc np).state = .used

theorem boot_balanced : Balanced boot := by
  have fresh : ∀ j, Fresh (boot.cell j) := by
    intro j
    have zero : ∀ j, (boot.proc j).runCount = 0 ∧ (boot.proc j).systemcallCount = 0 ∧
        (boot.proc j).interruptCount = 0 ∧ (boot.proc j).preemptCount = 0 ∧
        (boot.proc j).trapCount = 0 ∧ (boot.proc j).sleepCount = 0 := by
      decide +kernel
    obtain ⟨h1, h2, h3, h4, h5, h6⟩ := zero j
    exact ⟨h1, h2, h3, h4, h5, h6, rfl⟩
  refine ⟨boot_family, fun j => (fresh j).ledger ?_, fun i np forks => ?_⟩
  · rw [show (boot.cell j).proc.state = _ from boot_state j]
    split <;> rfl
  · exact absurd forks (boot_forks i np)

theorem Balanced.step (b : Balanced s) (h : step .project1b s e = .ok t) : Balanced t := by
  have move := step_move h
  refine ⟨b.family.step h, fun j => ?_, fun i np forks => ?_⟩
  · exact Move.ledger (move j) (fun i place => b.used i j (Or.inr place.2)) (b.ledger j)
  · rcases step_forks h forks with old | ⟨rfl, place, slot⟩
    · rcases Move.used (move np) (b.used i np old) with used | ⟨k, rfl, place⟩
      · exact used
      · obtain rfl := b.family.unique k i np (Or.inr place.2) old
        have back := launch_thread place h
        simp [Forks, back] at forks
    · simp [Machine.proc, fork_child place slot h, child]

theorem run_balanced {es : List Event} (h : run (step .project1b) boot es = .ok s) : Balanced s :=
  run_invariant_all (fun _ _ _ b h => b.step h) boot_balanced h

/-- As long as the slot is not freed, its process is never again in user mode. -/
def NeverReturns (v : Version) (s : Machine) (i : Slot) : Prop :=
  ∀ es t, run (step v) s es = .ok t → (t.cell i).lives = (s.cell i).lives → t.thread i ≠ .user

theorem doomed_never_returns {i : Slot} (h : Doomed (s.cell i)) : NeverReturns v s i := by
  intro es t hr same user
  have still : (s.cell i).lives < (t.cell i).lives ∨
      (s.cell i).lives ≤ (t.cell i).lives ∧ Doomed (t.cell i) := by
    refine run_invariant_all (I := fun r => (s.cell i).lives < (r.cell i).lives ∨
      (s.cell i).lives ≤ (r.cell i).lives ∧ Doomed (r.cell i)) ?_ (Or.inr ⟨le_rfl, h⟩) hr
    rintro r e r' (later | ⟨low, doomed⟩) step
    · exact Or.inl (later.trans_le (Move.lives (step_move step i)))
    · rcases Move.doomed (step_move step i) doomed with doomed | freed
      · exact Or.inr ⟨low.trans (Move.lives (step_move step i)), doomed⟩
      · exact Or.inl (by omega)
  rcases still with later | ⟨-, -, gone | ⟨status, fd, exiting⟩⟩
  · omega
  · simp [show (t.cell i).thread = .user from user] at gone
  · simp [show (t.cell i).thread = .user from user] at exiting

/-- In the kernel of `project1.b` the books of every process that is not running
balance modulo `2^32`. The trap that is neither a system call nor an interrupt is
the one after which the process never returns to user mode. -/
theorem counters_law (es : List Event) (s : Machine) (h : run (step .project1b) boot es = .ok s)
    (i : Slot) (off : (s.proc i).state ≠ .running) :
    (s.proc i).runCount = (s.proc i).preemptCount + (s.proc i).sleepCount +
        (if (s.proc i).state = .zombie then 1 else 0) ∧
      ∃ e : BitVec 32,
        (e = 0 ∨ e = 1 ∧ (s.cell i).unexpected = 1 ∧ NeverReturns .project1b s i) ∧
        (s.proc i).trapCount = (s.proc i).systemcallCount + (s.proc i).interruptCount + e := by
  have ledger := (run_balanced h).ledger i
  constructor
  · have runs : (s.proc i).runCount =
        (s.proc i).preemptCount + (s.proc i).sleepCount + standing (s.proc i).state := ledger.runs
    simpa [standing, off] using runs
  · refine ⟨BitVec.ofNat 32 (s.cell i).unexpected, ?_, ledger.traps⟩
    rcases ledger.once with none | ⟨one, doomed⟩
    · exact Or.inl (by simp [none])
    · exact Or.inr ⟨by simp [one], one, doomed_never_returns doomed⟩

/-- The first process forks a child, which makes a system call, is preempted in the
kernel, takes a page fault and exits. -/
def faultingChild : List Event :=
  [.scheduler 0, .usertrapret 0, .usertrap 0 .ecall, .fork 0 true true, .adopt 0, .launch 0,
    .kerneltrap 0 true, .scheduler 1, .usertrapret 1, .usertrap 1 .ecall, .kerneltrap 1 true,
    .scheduler 1, .usertrapret 1, .usertrap 1 .unexpected] ++
  List.replicate 16 (.fileclose 1) ++ [.finish 1]

theorem counters_law_zombie :
    ∃ s, run (step .project1b) boot faultingChild = .ok s ∧ (s.cell 1).unexpected = 1 ∧
      (s.proc 1).runCount = (s.proc 1).preemptCount + (s.proc 1).sleepCount + 1 ∧
      ∃ e : BitVec 32, (e = 0 ∨ e = 1 ∧ NeverReturns .project1b s 1) ∧
        (s.proc 1).trapCount = (s.proc 1).systemcallCount + (s.proc 1).interruptCount + e := by
  have reached : Yields (run (step .project1b) boot faultingChild) fun s =>
      (s.proc 1).state = .zombie ∧ (s.cell 1).unexpected = 1 := by
    decide +kernel
  obtain ⟨s, hr, zombie, one⟩ := reached
  obtain ⟨runs, e, kind, traps⟩ := counters_law faultingChild s hr 1 (by simp [zombie])
  refine ⟨s, hr, one, by simpa [zombie] using runs, e, ?_, traps⟩
  exact kind.imp_right fun h => ⟨h.1, h.2.2⟩

def intMax : Int := 2147483647

theorem toInt_succ {x : BitVec 32} (low : 0 ≤ x.toInt) (high : x.toInt < intMax) :
    (x + 1).toInt = x.toInt + 1 := by
  have h : (x + 1).toNat = (x.toNat + 1) % 2 ^ 32 := by simp [BitVec.toNat_add]
  have bound := x.isLt
  unfold intMax at high
  simp only [BitVec.toInt_eq_toNat_cond] at *
  rw [h]
  split at low <;> split <;> omega

/-- `preemptCount` and `interruptCount` are plain `int`s. -/
def Ordered (s : Machine) : Prop :=
  ∀ i, (s.proc i).preemptCount.toInt ≤ (s.proc i).interruptCount.toInt

/-- The step leads to a state with the counters in order. -/
def Lawful (s : Machine) (e : Event) : Prop := ∀ t, step .project1c s e = .ok t → Ordered t

/-- No trap takes `interruptCount` to the largest `int`. -/
def Below (s : Machine) : Event → Prop
  | .usertrap i _ => (s.proc i).interruptCount.toInt + 1 < intMax
  | _ => True

/-- A preemption inside the kernel is covered by an earlier interrupt in user mode
at which the process was not preempted. -/
def Covered (s : Machine) : Event → Prop
  | .kerneltrap i true =>
    s.At i Thread.InKernel → (s.proc i).preemptCount.toInt < (s.proc i).interruptCount.toInt
  | _ => True

instance (s : Machine) : ∀ e, Decidable (Below s e)
  | .usertrap _ _ => inferInstanceAs (Decidable (_ < intMax))
  | .scheduler _ | .mlfq _ | .kerneltrap .. | .usertrapret _ | .sleep .. | .wakeup .. | .kill _
  | .fork .. | .adopt _ | .launch _ | .exit .. | .fileclose _ | .finish _ | .wait ..
  | .fdalloc .. | .close .. => isTrue trivial

instance (s : Machine) : ∀ e, Decidable (Covered s e)
  | .kerneltrap _ true => inferInstanceAs (Decidable (_ → _))
  | .kerneltrap _ false | .usertrap .. | .scheduler _ | .mlfq _ | .usertrapret _ | .sleep ..
  | .wakeup .. | .kill _ | .fork .. | .adopt _ | .launch _ | .exit .. | .fileclose _ | .finish _
  | .wait .. | .fdalloc .. | .close .. => isTrue trivial

/-- The two counters of a process, in order and in range. -/
structure InRange (p : Proc) : Prop where
  low : 0 ≤ p.preemptCount.toInt
  ordered : p.preemptCount.toInt ≤ p.interruptCount.toInt
  high : p.interruptCount.toInt < intMax

theorem inRange_zero {p : Proc} (preempts : p.preemptCount = 0) (interrupts : p.interruptCount = 0) :
    InRange p := by
  constructor <;> simp [preempts, interrupts, intMax]

theorem InRange.same {p q : Proc} (h : InRange p) (preempts : q.preemptCount = p.preemptCount)
    (interrupts : q.interruptCount = p.interruptCount) : InRange q := by
  obtain ⟨low, ordered, high⟩ := h
  constructor <;> simpa only [preempts, interrupts]

/-- An interrupt in user mode is counted, and so is the preemption it may cause. -/
theorem InRange.interrupted {p q : Proc} (h : InRange p)
    (below : p.interruptCount.toInt + 1 < intMax)
    (interrupts : q.interruptCount = p.interruptCount + 1)
    (preempts : q.preemptCount = p.preemptCount ∨ q.preemptCount = p.preemptCount + 1) :
    InRange q := by
  obtain ⟨low, ordered, high⟩ := h
  have up := toInt_succ (low.trans ordered) high
  have up' := toInt_succ low (ordered.trans_lt high)
  rcases preempts with preempts | preempts
  · constructor <;> simp only [preempts, interrupts, up] <;> omega
  · constructor <;> simp only [preempts, interrupts, up, up'] <;> omega

theorem InRange.preempted_iff {p q : Proc} (h : InRange p)
    (interrupts : q.interruptCount = p.interruptCount)
    (preempts : q.preemptCount = p.preemptCount + 1) :
    (q.preemptCount.toInt ≤ q.interruptCount.toInt ↔
      p.preemptCount.toInt < p.interruptCount.toInt) ∧
    (p.preemptCount.toInt < p.interruptCount.toInt → InRange q) := by
  obtain ⟨low, ordered, high⟩ := h
  have up := toInt_succ low (ordered.trans_lt high)
  refine ⟨?_, fun covered => ?_⟩
  · simp only [preempts, interrupts, up]
    omega
  · constructor <;> simp only [preempts, interrupts, up] <;> omega

theorem Move.inRange (m : Move v s e j c) (before : InRange (s.proc j)) (below : Below s e)
    (covered : Covered s e) : InRange c.proc := by
  cases m with
  | trapped call place trap =>
    subst call
    cases trap with
    | call | killedCall | unexpected => exact before.same rfl rfl
    | killed | device => exact before.interrupted below rfl (Or.inl rfl)
    | preempted => exact before.interrupted below rfl (Or.inr rfl)
  | preempted call place =>
    subst call
    exact (before.preempted_iff (by rfl) (by rfl)).2 (covered place)
  | refused call slot freed =>
    obtain ⟨q, rfl⟩ := freed
    exact inRange_zero rfl rfl
  | freed => exact inRange_zero rfl rfl
  | dispatched => cases v <;> exact before.same rfl rfl
  | closes =>
    rw [fileclose_proc]
    exact before.same rfl rfl
  | _ => exact before.same rfl rfl

theorem lawful_iff_covered (before : ∀ i, InRange (s.proc i)) (below : Below s e) :
    Lawful s e ↔ Covered s e := by
  constructor
  · intro lawful
    cases e with
    | kerneltrap i timer =>
      cases timer with
      | false => trivial
      | true =>
        intro place
        have ordered := lawful _ (by simp only [step, place, ↓reduceIte]; rfl) i
        refine ((before i).preempted_iff ?_ ?_).1.mp ordered <;>
          simp [Machine.proc, kerneltrap, ProcessThreads.yield]
    | _ => trivial
  · intro covered t ht i
    exact (Move.inRange (step_move ht i) (before i) below covered).ordered

/-- As long as the counters stay below the largest `int`, the preemptions of no
process ever exceed its interrupts exactly when each preemption inside the kernel
finds fewer of them than interrupts. -/
theorem preempts_within_interrupts (es : List Event)
    (below : Meets (step .project1c) Below boot es) :
    Meets (step .project1c) Lawful boot es ↔ Meets (step .project1c) Covered boot es := by
  refine meets_iff_within (I := fun s => ∀ i, InRange (s.proc i)) ?_ ?_ ?_ below
  · intro s e t before below covered h i
    exact Move.inRange (step_move h i) (before i) below covered
  · exact fun s e before below => lawful_iff_covered before below
  · have zero : ∀ i, (boot.proc i).preemptCount = 0 ∧ (boot.proc i).interruptCount = 0 := by
      decide +kernel
    exact fun i => inRange_zero (zero i).1 (zero i).2

/-- A device interrupt in user mode pays for the later preemption in the kernel. -/
theorem preempts_within_interrupts_first :
    Meets (step .project1c) Lawful boot
      [.scheduler 0, .usertrapret 0, .usertrap 0 .device, .usertrap 0 .ecall, .kerneltrap 0 true] :=
  (preempts_within_interrupts _ (by decide +kernel)).mpr (by decide +kernel)

/-- A timer interrupt during the first system call: one preemption, no interrupt. -/
theorem preempted_in_kernel :
    Yields (run (step .project1c) boot
      [.scheduler 0, .usertrapret 0, .usertrap 0 .ecall, .kerneltrap 0 true]) fun s =>
      (s.proc 0).preemptCount.toInt = 1 ∧ (s.proc 0).interruptCount.toInt = 0 := by
  decide +kernel

end TrapAccounting
