import Mathlib.Logic.Relation
import Xv6.ChildCalls
import Xv6.Lib.Outcomes
import Xv6.Lib.Updates

/-!
# The tree of processes

Only a process that holds `wait_lock` changes a parent or becomes a zombie, and one that
exits first gives all its children to the first process. So a parent is always alive and
has a smaller pid than its child, and nobody falls asleep in `wait` beside a zombie child.
-/

namespace ChildFamily

open ChildCalls EventRuns Function Outcomes Updates

variable {n : Nat} {init : Fin n} {s t : State n} {p q j k : Fin n} {c : Pc n} {x : Proc n}

/-- The place needs `wait_lock`. -/
def holds : Pc n → Bool
  | .reparenting .. | .wakingInit .. | .wakingParent .. => true
  | .scanning .. | .deciding .. | .sleepy .. => true
  | _ => false

/-- The new process of a `fork` that is not over. -/
def forking : Pc n → Option (Fin n)
  | .filling np | .filled np _ | .adopted np _ => some np
  | _ => none

/-- The process has called `exit`. -/
def leaving : Pc n → Bool
  | .exiting .. | .reparenting .. | .wakingInit .. | .wakingParent .. => true
  | _ => false

/-- The parent that such a `fork` of `p` has recorded. -/
def recorded (p : Fin n) : Pc n → Option (Fin n)
  | .adopted .. => some p
  | _ => none

/-- `reparent` is past slot `j`. -/
def cleared (j : Fin n) : Pc n → Prop
  | .reparenting _ i => j.val < i
  | .wakingInit _ i _ => j.val ≤ i
  | .wakingParent .. => True
  | _ => False

/-- The loop of `wait` is past slot `j`. -/
def passed (j : Fin n) : Pc n → Prop
  | .scanning _ i _ => j.val < i
  | .deciding _ | .sleepy _ => True
  | _ => False

/-- The last `wakeup` of `exit` is past slot `j`. -/
def notified (j : Fin n) : Pc n → Prop
  | .wakingParent _ i => j.val < i
  | _ => False

/-- A `wakeup` of the first process is on its way. -/
def waking (init : Fin n) : Pc n → Prop
  | .wakingInit _ _ j => j ≤ init.val
  | _ => False

def asleepInWait : Pc n → Bool
  | .asleep _ => true
  | _ => false

/-- The process sleeps until a child exits. -/
def Sleeps (s : State n) (q : Fin n) : Prop := (s.proc q).state = .sleeping ∧ asleepInWait (s.pc q)

def alive : ProcState → Bool
  | .sleeping | .runnable | .running => true
  | _ => false

/-- The states that go with a place. -/
def Place (j : Fin n) (x : Proc n) : Pc n → Prop
  | .gone => x.state = .unused ∨ x.state = .zombie
  | .user => x.state = .used ∨ x.state = .runnable ∨ x.state = .running
  | .asleep _ => x.state = .sleeping ∧ x.chan = .proc j ∨ x.state = .runnable ∨ x.state = .running
  | .blocked => x.state = .sleeping ∧ x.chan = .other ∨ x.state = .runnable ∨ x.state = .running
  | _ => x.state = .runnable ∨ x.state = .running

structure Inv (init : Fin n) (s : State n) : Prop where
  lock : ∀ p, s.waitLock = some p ↔ holds (s.pc p) = true
  place : ∀ j, Place j (s.proc j) (s.pc j)
  first : alive (s.proc init).state = true ∧ (s.proc init).parent = none ∧ (s.proc init).pid = 1
  pids : ∀ j, (s.proc j).state ≠ .unused → j ≠ init → 1 < (s.proc j).pid ∧ (s.proc j).pid < s.nextpid
  nextpid : 1 < s.nextpid
  distinct : ∀ j k, (s.proc j).state ≠ .unused → (s.proc k).state ≠ .unused →
    (s.proc j).pid = (s.proc k).pid → j = k
  forks : ∀ p np, forking (s.pc p) = some np → (s.proc np).state = .used ∧
    (s.proc np).forker = (s.proc p).pid ∧ (s.proc np).parent = recorded p (s.pc p)
  own : ∀ p q np, forking (s.pc p) = some np → forking (s.pc q) = some np → p = q
  younger : ∀ p np, forking (s.pc p) = some np → (s.proc p).pid < (s.proc np).pid
  empty : ∀ j, (s.proc j).state = .unused → (s.proc j).parent = none
  parents : ∀ j q, (s.proc j).parent = some q → alive (s.proc q).state = true ∧
    (s.proc q).pid < (s.proc j).pid ∧ (q = init ∨ (s.proc q).pid = (s.proc j).forker)
  named : ∀ j, j ≠ init → (s.proc j).state ≠ .unused → (s.proc j).state ≠ .used →
    (s.proc j).parent ≠ none
  orphans : ∀ p j, cleared j (s.pc p) → (s.proc j).parent ≠ some p
  stays : leaving (s.pc init) = false
  scanned : ∀ q j, passed j (s.pc q) → (s.proc j).parent = some q → (s.proc j).state ≠ .zombie
  told : ∀ p q, notified q (s.pc p) → (s.proc p).parent = some q → ¬ Sleeps s q
  sleepers : ∀ q j, Sleeps s q → (s.proc j).parent = some q → (s.proc j).state = .zombie →
    q = init ∧ ∃ p, waking init (s.pc p)

theorem lock_kept (inv : Inv init s) (pc : t.pc = update s.pc p c) (lock : t.waitLock = s.waitLock)
    (same : holds c = holds (s.pc p)) (q : Fin n) :
    t.waitLock = some q ↔ holds (t.pc q) = true := by
  rw [lock, pc]
  rcases eq_or_ne q p with rfl | other
  · rw [update_self, same]
    exact inv.lock q
  · rw [update_of_ne other]
    exact inv.lock q

theorem lock_taken (inv : Inv init s) (pc : t.pc = update s.pc p c) (free : s.waitLock = none)
    (lock : t.waitLock = some p) (now : holds c = true) (q : Fin n) :
    t.waitLock = some q ↔ holds (t.pc q) = true := by
  rw [lock, pc]
  rcases eq_or_ne q p with rfl | other
  · rw [update_self, now]
    exact ⟨fun _ => rfl, fun _ => rfl⟩
  · rw [update_of_ne other, ← inv.lock q, free]
    exact ⟨fun same => absurd (Option.some.inj same).symm other, nofun⟩

theorem lock_left (inv : Inv init s) (pc : t.pc = update s.pc p c) (held : holds (s.pc p) = true)
    (lock : t.waitLock = none) (now : holds c = false) (q : Fin n) :
    t.waitLock = some q ↔ holds (t.pc q) = true := by
  rw [lock, pc]
  rcases eq_or_ne q p with rfl | other
  · rw [update_self, now]
    exact ⟨nofun, nofun⟩
  · rw [update_of_ne other, ← inv.lock q, (inv.lock p).mpr held]
    exact ⟨nofun, fun same => absurd (Option.some.inj same).symm other⟩

/-- The holder of `wait_lock` is alone. -/
theorem Inv.alone (inv : Inv init s) (held : holds (s.pc p) = true)
    (also_ : holds (s.pc q) = true) : q = p := by
  have mine := (inv.lock p).mpr held
  rw [(inv.lock q).mpr also_] at mine
  exact Option.some.inj mine

/-- `initproc` does not exit. -/
theorem Inv.not_leaving (inv : Inv init s) (here : leaving (s.pc p) = true) : p ≠ init := by
  rintro rfl
  rw [inv.stays] at here
  cases here

theorem Inv.not_dead (inv : Inv init s) (dead : alive (s.proc p).state = false) : p ≠ init := by
  rintro rfl
  rw [inv.first.1] at dead
  cases dead

theorem holds_cleared (h : cleared j c) : holds c = true := by
  cases c <;> first | rfl | exact h.elim

theorem holds_passed (h : passed j c) : holds c = true := by
  cases c <;> first | rfl | exact h.elim

theorem holds_notified (h : notified j c) : holds c = true := by
  cases c <;> first | rfl | exact h.elim

theorem holds_waking (h : waking init c) : holds c = true := by
  cases c <;> first | rfl | exact h.elim

theorem Inv.move (inv : Inv init s) (proc : t.proc = s.proc) (next : t.nextpid = s.nextpid)
    (pc : t.pc = update s.pc p c) (lock : ∀ q, t.waitLock = some q ↔ holds (t.pc q) = true)
    (place : Place p (s.proc p) c) (fork : forking c = forking (s.pc p))
    (kept : recorded p c = recorded p (s.pc p))
    (clear : ∀ j, cleared j c → (s.proc j).parent ≠ some p)
    (stays : leaving c = true → p ≠ init)
    (pass : ∀ j, passed j c → (s.proc j).parent = some p → (s.proc j).state ≠ .zombie)
    (notify : ∀ q, notified q c → (s.proc p).parent = some q → ¬ Sleeps s q)
    (sleep : asleepInWait c = true → asleepInWait (s.pc p) = true)
    (wake : waking init (s.pc p) → waking init c ∨ ¬ Sleeps s init) : Inv init t := by
  have sleeps (q : Fin n) (h : Sleeps t q) : Sleeps s q := by
    obtain ⟨state, inWait⟩ := h
    rw [proc] at state
    rw [pc] at inWait
    refine ⟨state, ?_⟩
    rcases eq_or_ne q p with rfl | other
    · rw [update_self] at inWait
      exact sleep inWait
    · rwa [update_of_ne other] at inWait
  have forked (q : Fin n) : forking (t.pc q) = forking (s.pc q) := by
    rw [pc]
    exact update_reads forking fork q
  constructor
  case lock => exact lock
  case place =>
    intro j
    rw [proc, pc]
    rcases eq_or_ne j p with rfl | other
    · rw [update_self]
      exact place
    · rw [update_of_ne other]
      exact inv.place j
  case first =>
    rw [proc]
    exact inv.first
  case pids =>
    rw [proc, next]
    exact inv.pids
  case nextpid =>
    rw [next]
    exact inv.nextpid
  case distinct =>
    rw [proc]
    exact inv.distinct
  case forks =>
    intro q np here
    rw [forked] at here
    obtain ⟨state, forker, parent⟩ := inv.forks q np here
    rw [proc]
    refine ⟨state, forker, parent.trans ?_⟩
    rw [pc]
    rcases eq_or_ne q p with rfl | other
    · rw [update_self, kept]
    · rw [update_of_ne other]
  case own =>
    intro q r np hq hr
    rw [forked] at hq hr
    exact inv.own q r np hq hr
  case younger =>
    intro q np here
    rw [forked] at here
    rw [proc]
    exact inv.younger q np here
  case empty =>
    rw [proc]
    exact inv.empty
  case parents =>
    rw [proc]
    exact inv.parents
  case named =>
    rw [proc]
    exact inv.named
  case orphans =>
    intro q j
    rw [proc, pc]
    rcases eq_or_ne q p with rfl | other
    · rw [update_self]
      exact clear j
    · rw [update_of_ne other]
      exact inv.orphans q j
  case stays =>
    rw [pc]
    rcases eq_or_ne init p with rfl | other
    · rw [update_self]
      by_contra leaves
      exact stays (by simpa using leaves) rfl
    · rw [update_of_ne other]
      exact inv.stays
  case scanned =>
    intro q j
    rw [proc, pc]
    rcases eq_or_ne q p with rfl | other
    · rw [update_self]
      exact pass j
    · rw [update_of_ne other]
      exact inv.scanned q j
  case told =>
    intro q r here parent asleep
    rw [proc] at parent
    rw [pc] at here
    rcases eq_or_ne q p with rfl | other
    · rw [update_self] at here
      exact notify r here parent (sleeps r asleep)
    · rw [update_of_ne other] at here
      exact inv.told q r here parent (sleeps r asleep)
  case sleepers =>
    intro q j asleep parent zombie
    rw [proc] at parent zombie
    have before := sleeps q asleep
    obtain ⟨rfl, r, woke⟩ := inv.sleepers q j before parent zombie
    refine ⟨rfl, r, ?_⟩
    rw [pc]
    rcases eq_or_ne r p with rfl | other
    · rw [update_self]
      exact (wake woke).resolve_right fun awake => awake before
    · rw [update_of_ne other]
      exact woke

/-- A slot whose process is alive, and stays so, changes. -/
theorem Inv.sched (inv : Inv init s) (proc : t.proc = update s.proc j x)
    (next : t.nextpid = s.nextpid) (pc : t.pc = s.pc) (lock : t.waitLock = s.waitLock)
    (pid : x.pid = (s.proc j).pid) (parent : x.parent = (s.proc j).parent)
    (forker : x.forker = (s.proc j).forker)
    (state : x.state = (s.proc j).state ∨ alive x.state = true ∧ alive (s.proc j).state = true)
    (place : Place j x (s.pc j))
    (sleep : x.state = .sleeping → asleepInWait (s.pc j) = true → (s.proc j).state = .sleeping) :
    Inv init t := by
  have pids (k : Fin n) : (t.proc k).pid = (s.proc k).pid := by
    rw [proc]
    exact update_reads Proc.pid pid k
  have parents (k : Fin n) : (t.proc k).parent = (s.proc k).parent := by
    rw [proc]
    exact update_reads Proc.parent parent k
  have forkers (k : Fin n) : (t.proc k).forker = (s.proc k).forker := by
    rw [proc]
    exact update_reads Proc.forker forker k
  have states (k : Fin n) : (t.proc k).state = (s.proc k).state ∨
      alive (t.proc k).state = true ∧ alive (s.proc k).state = true := by
    rw [proc]
    rcases eq_or_ne k j with rfl | other
    · rw [update_self]
      exact state
    · rw [update_of_ne other]
      exact .inl rfl
  have dead (k : Fin n) (a : ProcState) (notAlive : alive a = false) :
      (t.proc k).state = a ↔ (s.proc k).state = a := by
    rcases states k with same | ⟨after, before⟩
    · rw [same]
    · constructor
      · rintro rfl
        rw [after] at notAlive
        cases notAlive
      · rintro rfl
        rw [before] at notAlive
        cases notAlive
  have lives (k : Fin n) : alive (t.proc k).state = alive (s.proc k).state := by
    rcases states k with same | ⟨after, before⟩
    · rw [same]
    · rw [after, before]
  have sleeps (q : Fin n) (h : Sleeps t q) : Sleeps s q := by
    obtain ⟨asleep, inWait⟩ := h
    rw [pc] at inWait
    refine ⟨?_, inWait⟩
    rw [proc] at asleep
    rcases eq_or_ne q j with rfl | other
    · rw [update_self] at asleep
      exact sleep asleep inWait
    · rwa [update_of_ne other] at asleep
  constructor
  case lock =>
    rw [lock, pc]
    exact inv.lock
  case place =>
    intro k
    rw [proc, pc]
    rcases eq_or_ne k j with rfl | other
    · rw [update_self]
      exact place
    · rw [update_of_ne other]
      exact inv.place k
  case first =>
    rw [lives, parents, pids]
    exact inv.first
  case pids =>
    intro k
    rw [pids, next, ne_eq, dead k _ rfl]
    exact inv.pids k
  case nextpid =>
    rw [next]
    exact inv.nextpid
  case distinct =>
    intro k l
    rw [ne_eq, ne_eq, dead k _ rfl, dead l _ rfl, pids, pids]
    exact inv.distinct k l
  case forks =>
    intro q np
    rw [pc, dead np _ rfl, forkers, pids, parents]
    exact inv.forks q np
  case own =>
    rw [pc]
    exact inv.own
  case younger =>
    intro q np
    rw [pc, pids, pids]
    exact inv.younger q np
  case empty =>
    intro k
    rw [dead k _ rfl, parents]
    exact inv.empty k
  case parents =>
    intro k q
    rw [parents, lives, pids, pids, forkers]
    exact inv.parents k q
  case named =>
    intro k
    rw [ne_eq (t.proc k).state, ne_eq (t.proc k).state, dead k _ rfl, dead k _ rfl, parents]
    exact inv.named k
  case orphans =>
    intro q k
    rw [pc, parents]
    exact inv.orphans q k
  case stays =>
    rw [pc]
    exact inv.stays
  case scanned =>
    intro q k
    rw [pc, parents, ne_eq, dead k _ rfl]
    exact inv.scanned q k
  case told =>
    intro q r
    rw [pc, parents]
    exact fun here parent asleep => inv.told q r here parent (sleeps r asleep)
  case sleepers =>
    intro q k asleep
    rw [parents, dead k _ rfl, pc]
    exact inv.sleepers q k (sleeps q asleep)

theorem pc_of_dead (inv : Inv init s)
    (dead : (s.proc j).state = .unused ∨ (s.proc j).state = .zombie) : s.pc j = .gone := by
  have place := inv.place j
  cases here : s.pc j <;> rw [here] at place <;> simp only [Place] at place <;> grind

theorem pc_of_used (inv : Inv init s) (used : (s.proc j).state = .used) : s.pc j = .user := by
  have place := inv.place j
  cases here : s.pc j <;> rw [here] at place <;> simp only [Place] at place <;> grind

theorem Inv.free (inv : Inv init s) (free : s.waitLock = none) (q : Fin n) :
    holds (s.pc q) = false := by
  by_contra held
  have mine := (inv.lock q).mpr (by simpa using held)
  rw [free] at mine
  cases mine

theorem place_change (inv : Inv init s) (proc : t.proc = update s.proc j x)
    (pc : t.pc = update s.pc p c) (mine : Place p (t.proc p) c)
    (slot : j ≠ p → Place j x (s.pc j)) (k : Fin n) : Place k (t.proc k) (t.pc k) := by
  rcases eq_or_ne k p with rfl | other
  · rw [pc, update_self]
    exact mine
  · rw [pc, update_of_ne other, proc]
    rcases eq_or_ne k j with rfl | away
    · rw [update_self]
      exact slot other
    · rw [update_of_ne away]
      exact inv.place k

/-- The pid of the first process is the smallest. -/
theorem Inv.one_le_pid (inv : Inv init s) (real : (s.proc j).state ≠ .unused) :
    1 ≤ (s.proc j).pid ∧ (s.proc j).pid < s.nextpid := by
  rcases eq_or_ne j init with rfl | other
  · rw [inv.first.2.2]
    exact ⟨Nat.le_refl 1, inv.nextpid⟩
  · have pid := inv.pids j real other
    omega

/-- A process that runs is not the new one of a `fork`. -/
theorem Inv.grown (inv : Inv init s) (running : (s.proc p).state = .running) (q : Fin n) :
    forking (s.pc q) ≠ some p := by
  intro fork
  have used := (inv.forks q p fork).1
  rw [running] at used
  cases used

/-- The new process of a `fork` is neither its parent nor the first one, and no other
`fork` has it. -/
theorem Inv.child {np : Fin n} (inv : Inv init s) (fork : forking (s.pc p) = some np)
    (running : (s.proc p).state = .running) :
    np ≠ p ∧ np ≠ init ∧ s.pc np = .user ∧ ∀ q, forking (s.pc q) = some np → q = p := by
  have used := (inv.forks p np fork).1
  refine ⟨?_, inv.not_dead (by rw [used]; rfl), pc_of_used inv used,
    fun q h => inv.own q p np h fork⟩
  rintro rfl
  exact inv.grown running np fork

/-- The pids are as before. -/
theorem Inv.same_pids (inv : Inv init s) (proc : t.proc = update s.proc j x)
    (next : t.nextpid = s.nextpid) (pid : x.pid = (s.proc j).pid)
    (unused : x.state = .unused ↔ (s.proc j).state = .unused) :
    (∀ k, (t.proc k).state ≠ .unused → k ≠ init →
      1 < (t.proc k).pid ∧ (t.proc k).pid < t.nextpid) ∧
    ∀ k l, (t.proc k).state ≠ .unused → (t.proc l).state ≠ .unused →
      (t.proc k).pid = (t.proc l).pid → k = l := by
  have pids (k : Fin n) : (t.proc k).pid = (s.proc k).pid := by
    rw [proc]
    exact update_reads Proc.pid pid k
  have taken (k : Fin n) : ((t.proc k).state = .unused) = ((s.proc k).state = .unused) := by
    rw [proc]
    exact update_reads (fun v : Proc n => v.state = .unused) (propext unused) k
  constructor
  · intro k real
    rw [ne_eq, taken] at real
    rw [pids, next]
    exact inv.pids k real
  · intro k l realK realL same
    rw [ne_eq, taken] at realK realL
    rw [pids, pids] at same
    exact inv.distinct k l realK realL same

theorem inv_found {i : Nat} {np : Fin n} (inv : Inv init s) (place : s.pc p = .allocating i)
    (running : (s.proc p).state = .running) (unused : (s.proc np).state = .unused) :
    Inv init (found s p np) := by
  have gone := pc_of_dead inv (.inl unused)
  have noParent := inv.empty np unused
  have other : np ≠ p := by
    rintro rfl
    rw [running] at unused
    cases unused
  have notInit : np ≠ init := inv.not_dead (by rw [unused]; rfl)
  have below (k : Fin n) (real : (s.proc k).state ≠ .unused) := inv.one_le_pid real
  generalize ht : found s p np = t
  have proc : t.proc = update s.proc np { s.proc np with
      state := .used, pid := s.nextpid, forker := (s.proc p).pid } := by rw [← ht]; rfl
  have pc : t.pc = update (update s.pc np .user) p (.filling np) := by rw [← ht]; rfl
  have next : t.nextpid = s.nextpid + 1 := by rw [← ht]; rfl
  have lock : t.waitLock = s.waitLock := by rw [← ht]; rfl
  have slot (k : Fin n) := congrFun proc k
  have point (k : Fin n) := congrFun pc k
  simp only [update_apply] at slot point
  have nextpid := inv.nextpid
  constructor
  case lock =>
    intro q
    rw [lock, pc, inv.lock q]
    rcases eq_or_ne q p with rfl | away
    · rw [update_self, place]
      exact Iff.rfl
    · rw [update_of_ne away]
      rcases eq_or_ne q np with rfl | away
      · rw [update_self, gone]
        exact Iff.rfl
      · rw [update_of_ne away]
  case place =>
    intro k
    rw [proc, pc]
    rcases eq_or_ne k p with rfl | away
    · rw [update_self, update_of_ne other.symm]
      exact .inr running
    · rw [update_of_ne away]
      rcases eq_or_ne k np with rfl | away
      · rw [update_self, update_self]
        exact .inl rfl
      · rw [update_of_ne away, update_of_ne away]
        exact inv.place k
  case first =>
    have old := inv.first
    grind
  case pids =>
    have old := inv.pids
    grind
  case nextpid => omega
  case distinct =>
    have old := inv.distinct
    grind
  case forks =>
    have old := inv.forks
    grind [forking, recorded]
  case own =>
    have old := inv.own
    have forks := inv.forks
    grind [forking]
  case younger =>
    have old := inv.younger
    have forks := inv.forks
    grind [forking]
  case empty =>
    have old := inv.empty
    grind
  case parents =>
    have old := inv.parents
    grind [alive]
  case named =>
    have old := inv.named
    grind
  case orphans =>
    have old := inv.orphans
    grind [cleared]
  case stays =>
    have old := inv.stays
    grind [leaving]
  case scanned =>
    have old := inv.scanned
    grind [passed]
  case told =>
    have old := inv.told
    grind [notified, Sleeps, asleepInWait]
  case sleepers =>
    have old := inv.sleepers
    grind [waking, Sleeps, asleepInWait]

/-- There is no memory for the child. -/
theorem inv_unfound {np : Fin n} (inv : Inv init s) (place : s.pc p = .filling np)
    (running : (s.proc p).state = .running) : Inv init (fill s p np false) := by
  have fork : forking (s.pc p) = some np := by
    rw [place]
    rfl
  obtain ⟨used, -, noParent⟩ := inv.forks p np fork
  rw [place] at noParent
  have noParent : (s.proc np).parent = none := noParent
  obtain ⟨other, notInit, user, alone⟩ := inv.child fork running
  generalize ht : fill s p np false = t
  have proc : t.proc = update s.proc np (freed (s.proc np)) := by rw [← ht]; rfl
  have pc : t.pc = update (update s.pc np .gone) p .user := by rw [← ht]; rfl
  have next : t.nextpid = s.nextpid := by rw [← ht]; rfl
  have lock : t.waitLock = s.waitLock := by rw [← ht]; rfl
  have slot (k : Fin n) := congrFun proc k
  have point (k : Fin n) := congrFun pc k
  simp only [update_apply] at slot point
  constructor
  case lock =>
    intro q
    rw [lock, pc, inv.lock q]
    rcases eq_or_ne q p with rfl | away
    · rw [update_self, place]
      exact Iff.rfl
    · rw [update_of_ne away]
      rcases eq_or_ne q np with rfl | away
      · rw [update_self, user]
        exact Iff.rfl
      · rw [update_of_ne away]
  case place =>
    intro k
    rw [proc, pc]
    rcases eq_or_ne k p with rfl | away
    · rw [update_self, update_of_ne other.symm]
      exact .inr (.inr running)
    · rw [update_of_ne away]
      rcases eq_or_ne k np with rfl | away
      · rw [update_self, update_self]
        exact .inl rfl
      · rw [update_of_ne away, update_of_ne away]
        exact inv.place k
  case first =>
    have old := inv.first
    grind
  case pids =>
    have old := inv.pids
    grind [freed]
  case nextpid =>
    rw [next]
    exact inv.nextpid
  case distinct =>
    have old := inv.distinct
    grind [freed]
  case forks =>
    have old := inv.forks
    grind [freed, forking, recorded]
  case own =>
    have old := inv.own
    grind [forking]
  case younger =>
    have old := inv.younger
    grind [freed, forking]
  case empty =>
    have old := inv.empty
    grind [freed]
  case parents =>
    have old := inv.parents
    grind [freed, alive]
  case named =>
    have old := inv.named
    grind [freed]
  case orphans =>
    have old := inv.orphans
    grind [freed, cleared]
  case stays =>
    have old := inv.stays
    grind [leaving]
  case scanned =>
    have old := inv.scanned
    grind [freed, passed]
  case told =>
    have old := inv.told
    grind [freed, notified, Sleeps, asleepInWait]
  case sleepers =>
    have old := inv.sleepers
    grind [freed, waking, Sleeps, asleepInWait]

theorem inv_adopt {np : Fin n} {pid : Nat} (inv : Inv init s) (place : s.pc p = .filled np pid)
    (running : (s.proc p).state = .running) (free : s.waitLock = none) :
    Inv init (adopt s p np pid) := by
  have fork : forking (s.pc p) = some np := by
    rw [place]
    rfl
  obtain ⟨used, forker, noParent⟩ := inv.forks p np fork
  have younger := inv.younger p np fork
  obtain ⟨other, notInit, user, alone⟩ := inv.child fork running
  have nobody := inv.free free
  generalize ht : adopt s p np pid = t
  have proc : t.proc = update s.proc np { s.proc np with parent := some p } := by rw [← ht]; rfl
  have pc : t.pc = update s.pc p (.adopted np pid) := by rw [← ht]; rfl
  have next : t.nextpid = s.nextpid := by rw [← ht]; rfl
  have lock : t.waitLock = s.waitLock := by rw [← ht]; rfl
  have slot (k : Fin n) := congrFun proc k
  have point (k : Fin n) := congrFun pc k
  simp only [update_apply] at slot point
  obtain ⟨pids, distinct⟩ := inv.same_pids proc next rfl Iff.rfl
  constructor
  case lock => exact lock_kept inv pc lock (by rw [place]; rfl)
  case place =>
    refine place_change inv proc pc ?_ fun _ => ?_
    · rw [proc, update_of_ne other.symm]
      exact .inr running
    · rw [user]
      exact .inl used
  case first =>
    have old := inv.first
    grind
  case pids => exact pids
  case nextpid =>
    rw [next]
    exact inv.nextpid
  case distinct => exact distinct
  case forks =>
    have old := inv.forks
    grind [forking, recorded]
  case own =>
    have old := inv.own
    grind [forking]
  case younger =>
    have old := inv.younger
    grind [forking]
  case empty =>
    have old := inv.empty
    grind
  case parents =>
    have old := inv.parents
    grind [alive]
  case named =>
    have old := inv.named
    grind
  case orphans =>
    have old := inv.orphans
    grind [cleared, holds_cleared]
  case stays =>
    have old := inv.stays
    grind [leaving]
  case scanned =>
    have old := inv.scanned
    grind [passed]
  case told =>
    have old := inv.told
    grind [notified, Sleeps, asleepInWait, holds_notified]
  case sleepers =>
    have old := inv.sleepers
    grind [waking, Sleeps, asleepInWait]

theorem inv_start {np : Fin n} {pid : Nat} (inv : Inv init s) (place : s.pc p = .adopted np pid)
    (running : (s.proc p).state = .running) : Inv init (start s p np pid) := by
  have fork : forking (s.pc p) = some np := by
    rw [place]
    rfl
  obtain ⟨used, forker, parent⟩ := inv.forks p np fork
  rw [place] at parent
  have parent : (s.proc np).parent = some p := parent
  obtain ⟨other, notInit, user, alone⟩ := inv.child fork running
  generalize ht : start s p np pid = t
  have proc : t.proc = update s.proc np { s.proc np with state := .runnable } := by rw [← ht]; rfl
  have pc : t.pc = update s.pc p .user := by rw [← ht]; rfl
  have next : t.nextpid = s.nextpid := by rw [← ht]; rfl
  have lock : t.waitLock = s.waitLock := by rw [← ht]; rfl
  have slot (k : Fin n) := congrFun proc k
  have point (k : Fin n) := congrFun pc k
  simp only [update_apply] at slot point
  obtain ⟨pids, distinct⟩ := inv.same_pids proc next rfl (by rw [used]; exact ⟨nofun, nofun⟩)
  constructor
  case lock => exact lock_kept inv pc lock (by rw [place]; rfl)
  case place =>
    refine place_change inv proc pc ?_ fun _ => ?_
    · rw [proc, update_of_ne other.symm]
      exact .inr (.inr running)
    · rw [user]
      exact .inr (.inl rfl)
  case first =>
    have old := inv.first
    grind
  case pids => exact pids
  case nextpid =>
    rw [next]
    exact inv.nextpid
  case distinct => exact distinct
  case forks =>
    have old := inv.forks
    grind [forking, recorded]
  case own =>
    have old := inv.own
    grind [forking]
  case younger =>
    have old := inv.younger
    grind [forking]
  case empty =>
    have old := inv.empty
    grind
  case parents =>
    have old := inv.parents
    grind [alive]
  case named =>
    have old := inv.named
    grind
  case orphans =>
    have old := inv.orphans
    grind [cleared]
  case stays =>
    have old := inv.stays
    grind [leaving]
  case scanned =>
    have old := inv.scanned
    grind [passed]
  case told =>
    have old := inv.told
    grind [notified, Sleeps, asleepInWait]
  case sleepers =>
    have old := inv.sleepers
    grind [waking, Sleeps, asleepInWait]

/-- After a step of the process with `wait_lock`, what only its holder can say is said by
the new place of that process. -/
theorem Inv.by_holder (inv : Inv init s) (held : holds (s.pc p) = true) (pc : t.pc = update s.pc p c)
    {F : Pc n → Prop} (lock : ∀ c, F c → holds c = true) (here : F (t.pc q)) : q = p ∧ F c := by
  rw [pc] at here
  rcases update_cases F here with new | ⟨away, old⟩
  · exact new
  · exact absurd (inv.alone held (lock _ old)) away

/-- While another part of `exit` or `wait` has `wait_lock`, nobody wakes up the first process. -/
theorem Inv.unwoken (inv : Inv init s) (held : holds (s.pc p) = true)
    (still : ¬ waking init (s.pc p)) (r : Fin n) : ¬ waking init (s.pc r) := by
  intro woke
  obtain rfl := inv.alone held (holds_waking woke)
  exact still woke

/-- A process that is in no `fork` moves, and the slot that changes is in none either. -/
theorem Inv.same_forks (inv : Inv init s) (proc : t.proc = update s.proc j x)
    (pc : t.pc = update s.pc p c) (before : forking (s.pc p) = none) (after : forking c = none)
    (apart : ∀ q, forking (s.pc q) ≠ some j) (pid : x.pid = (s.proc j).pid) :
    (∀ q np, forking (t.pc q) = some np → (t.proc np).state = .used ∧
      (t.proc np).forker = (t.proc q).pid ∧ (t.proc np).parent = recorded q (t.pc q)) ∧
    (∀ q r np, forking (t.pc q) = some np → forking (t.pc r) = some np → q = r) ∧
    ∀ q np, forking (t.pc q) = some np → (t.proc q).pid < (t.proc np).pid := by
  have pids (k : Fin n) : (t.proc k).pid = (s.proc k).pid := by
    rw [proc]
    exact update_reads Proc.pid pid k
  have old {q np : Fin n} (fork : forking (t.pc q) = some np) :
      t.pc q = s.pc q ∧ t.proc np = s.proc np ∧ forking (s.pc q) = some np := by
    rw [pc] at fork
    rcases eq_or_ne q p with rfl | away
    · rw [update_self, after] at fork
      cases fork
    · rw [update_of_ne away] at fork
      have other : np ≠ j := fun same => apart q (same ▸ fork)
      rw [pc, proc, update_of_ne away, update_of_ne other]
      exact ⟨rfl, rfl, fork⟩
  refine ⟨fun q np fork => ?_, fun q r np fork fork' => ?_, fun q np fork => ?_⟩
  · obtain ⟨place, slot, fork⟩ := old fork
    rw [place, slot, pids]
    exact inv.forks q np fork
  · exact inv.own q r np (old fork).2.2 (old fork').2.2
  · obtain ⟨-, slot, fork⟩ := old fork
    rw [slot, pids]
    exact inv.younger q np fork

theorem inv_adopts {status : Int} {i : Nat} {pp : Fin n} (inv : Inv init s)
    (place : s.pc p = .reparenting status i) (index : pp.val = i)
    (running : (s.proc p).state = .running) (parent : (s.proc pp).parent = some p) :
    Inv init ((s.setProc pp { s.proc pp with parent := some init }).goTo p
      (.wakingInit status i 0)) := by
  have held : holds (s.pc p) = true := by
    rw [place]
    rfl
  have notInit : p ≠ init := inv.not_leaving (by rw [place]; rfl)
  have notFirst : pp ≠ init := by
    rintro rfl
    rw [inv.first.2.1] at parent
    cases parent
  have real : (s.proc pp).state ≠ .unused := by
    intro unused
    rw [inv.empty pp unused] at parent
    cases parent
  have pid := inv.pids pp real notFirst
  generalize ht : (s.setProc pp { s.proc pp with parent := some init }).goTo p
      (.wakingInit status i 0) = t
  have proc : t.proc = update s.proc pp { s.proc pp with parent := some init } := by rw [← ht]; rfl
  have pc : t.pc = update s.pc p (.wakingInit status i 0) := by rw [← ht]; rfl
  have next : t.nextpid = s.nextpid := by rw [← ht]; rfl
  have lock : t.waitLock = s.waitLock := by rw [← ht]; rfl
  have slot (k : Fin n) := congrFun proc k
  have point (k : Fin n) := congrFun pc k
  simp only [update_apply] at slot point
  have alone (q : Fin n) : forking (s.pc q) ≠ some pp := by
    intro h
    obtain ⟨-, -, same⟩ := inv.forks q pp h
    rw [parent] at same
    have mine : q = p := by
      cases here : s.pc q <;> simp_all [recorded]
    rw [mine, place] at h
    cases h
  obtain ⟨pids, distinct⟩ := inv.same_pids proc next rfl Iff.rfl
  obtain ⟨forks, own, younger⟩ := inv.same_forks proc pc (by rw [place]; rfl) rfl alone rfl
  constructor
  case lock => exact lock_kept inv pc lock (by rw [place]; rfl)
  case place =>
    refine place_change inv proc pc ?_ fun _ => ?_
    · rw [proc]
      rcases eq_or_ne p pp with rfl | away
      · rw [update_self]
        exact .inr running
      · rw [update_of_ne away]
        exact .inr running
    · have old := inv.place pp
      cases here : s.pc pp <;> rw [here] at old <;> exact old
  case first =>
    have old := inv.first
    grind
  case pids => exact pids
  case nextpid =>
    rw [next]
    exact inv.nextpid
  case distinct => exact distinct
  case forks => exact forks
  case own => exact own
  case younger => exact younger
  case empty =>
    have old := inv.empty
    grind
  case parents =>
    have old := inv.parents
    have first := inv.first
    grind
  case named =>
    have old := inv.named
    grind
  case orphans =>
    intro q j here
    obtain ⟨rfl, upTo⟩ := inv.by_holder held pc (fun _ => holds_cleared) here
    have upTo : j.val ≤ i := upTo
    rw [proc]
    rcases eq_or_ne j pp with rfl | other
    · rw [update_self]
      exact fun same => notInit (Option.some.inj same).symm
    · rw [update_of_ne other]
      refine inv.orphans q j ?_
      rw [place]
      have differs : j.val ≠ pp.val := fun same => other (Fin.ext same)
      exact (by omega : j.val < i)
  case stays =>
    have old := inv.stays
    grind [leaving]
  case scanned =>
    intro q j here
    exact (inv.by_holder held pc (fun _ => holds_passed) here).2.elim
  case told =>
    intro q r here
    exact (inv.by_holder held pc (fun _ => holds_notified) here).2.elim
  case sleepers =>
    intro q j asleep parent' zombie
    rw [proc] at parent' zombie
    rcases eq_or_ne j pp with rfl | other
    · rw [update_self] at parent'
      refine ⟨(Option.some.inj parent').symm, p, ?_⟩
      rw [pc, update_self]
      exact Nat.zero_le _
    · rw [update_of_ne other] at parent' zombie
      have before : Sleeps s q := by
        obtain ⟨state, inWait⟩ := asleep
        grind [Sleeps, asleepInWait]
      obtain ⟨-, r, woke⟩ := inv.sleepers q j before parent' zombie
      exact absurd woke (inv.unwoken held (by rw [place]; exact id) r)

theorem inv_die {status : Int} {i : Nat} (inv : Inv init s) (place : s.pc p = .wakingParent status i)
    (all : n ≤ i) (running : (s.proc p).state = .running) : Inv init (die s p status) := by
  have held : holds (s.pc p) = true := by
    rw [place]
    rfl
  have notInit : p ≠ init := inv.not_leaving (by rw [place]; rfl)
  have childless (j : Fin n) : (s.proc j).parent ≠ some p := by
    refine inv.orphans p j ?_
    rw [place]
    trivial
  have told (q : Fin n) (parent : (s.proc p).parent = some q) : ¬ Sleeps s q := by
    refine inv.told p q ?_ parent
    rw [place]
    exact Nat.lt_of_lt_of_le q.isLt all
  have named := inv.named p notInit
  generalize ht : die s p status = t
  have proc : t.proc = update s.proc p { s.proc p with xstate := status, state := .zombie } := by
    rw [← ht]
    rfl
  have pc : t.pc = update s.pc p .gone := by rw [← ht]; rfl
  have next : t.nextpid = s.nextpid := by rw [← ht]; rfl
  have lock : t.waitLock = none := by rw [← ht]; rfl
  have slot (k : Fin n) := congrFun proc k
  have point (k : Fin n) := congrFun pc k
  simp only [update_apply] at slot point
  obtain ⟨pids, distinct⟩ := inv.same_pids proc next rfl (by rw [running]; exact ⟨nofun, nofun⟩)
  obtain ⟨forks, own, younger⟩ :=
    inv.same_forks proc pc (by rw [place]; rfl) rfl (inv.grown running) rfl
  constructor
  case lock => exact lock_left inv pc held lock rfl
  case place =>
    refine place_change inv proc pc ?_ fun away => absurd rfl away
    rw [proc, update_self]
    exact .inr rfl
  case first =>
    have old := inv.first
    grind
  case pids => exact pids
  case nextpid =>
    rw [next]
    exact inv.nextpid
  case distinct => exact distinct
  case forks => exact forks
  case own => exact own
  case younger => exact younger
  case empty =>
    have old := inv.empty
    grind
  case parents =>
    have old := inv.parents
    grind
  case named =>
    have old := inv.named
    grind
  case orphans =>
    intro q j here
    exact (inv.by_holder held pc (fun _ => holds_cleared) here).2.elim
  case stays =>
    have old := inv.stays
    grind [leaving]
  case scanned =>
    intro q j here
    exact (inv.by_holder held pc (fun _ => holds_passed) here).2.elim
  case told =>
    intro q r here
    exact (inv.by_holder held pc (fun _ => holds_notified) here).2.elim
  case sleepers =>
    intro q j asleep parent zombie
    have before : Sleeps s q := by
      obtain ⟨state, inWait⟩ := asleep
      grind [Sleeps, asleepInWait]
    rw [proc] at parent zombie
    rcases eq_or_ne j p with rfl | other
    · rw [update_self] at parent
      exact absurd before (told q parent)
    · rw [update_of_ne other] at parent zombie
      obtain ⟨-, r, woke⟩ := inv.sleepers q j before parent zombie
      exact absurd woke (inv.unwoken held (by rw [place]; exact id) r)

theorem inv_reap {addr havekids : Bool} {i : Nat} {pp : Fin n} (inv : Inv init s)
    (place : s.pc p = .scanning addr i havekids) (running : (s.proc p).state = .running)
    (zombie : (s.proc pp).state = .zombie) : Inv init (reap s p pp) := by
  have held : holds (s.pc p) = true := by
    rw [place]
    rfl
  have gone := pc_of_dead inv (.inr zombie)
  have other : pp ≠ p := by
    rintro rfl
    rw [place] at gone
    cases gone
  have notInit : pp ≠ init := inv.not_dead (by rw [zombie]; rfl)
  generalize ht : reap s p pp = t
  have proc : t.proc = update s.proc pp (freed (s.proc pp)) := by rw [← ht]; rfl
  have pc : t.pc = update s.pc p .user := by rw [← ht]; rfl
  have next : t.nextpid = s.nextpid := by rw [← ht]; rfl
  have lock : t.waitLock = none := by rw [← ht]; rfl
  have slot (k : Fin n) := congrFun proc k
  have point (k : Fin n) := congrFun pc k
  simp only [update_apply] at slot point
  constructor
  case lock => exact lock_left inv pc held lock rfl
  case place =>
    refine place_change inv proc pc ?_ fun _ => ?_
    · rw [proc, update_of_ne other.symm]
      exact .inr (.inr running)
    · rw [gone]
      exact .inl rfl
  case first =>
    have old := inv.first
    grind
  case pids =>
    have old := inv.pids
    grind [freed]
  case nextpid =>
    rw [next]
    exact inv.nextpid
  case distinct =>
    have old := inv.distinct
    grind [freed]
  case forks =>
    have old := inv.forks
    grind [freed, forking, recorded]
  case own =>
    have old := inv.own
    grind [forking]
  case younger =>
    have old := inv.younger
    have forks := inv.forks
    grind [freed, forking]
  case empty =>
    have old := inv.empty
    grind [freed]
  case parents =>
    have old := inv.parents
    grind [freed, alive]
  case named =>
    have old := inv.named
    grind [freed]
  case orphans =>
    have old := inv.orphans
    grind [freed, cleared]
  case stays =>
    have old := inv.stays
    grind [leaving]
  case scanned =>
    have old := inv.scanned
    grind [freed, passed]
  case told =>
    have old := inv.told
    grind [freed, notified, Sleeps, asleepInWait]
  case sleepers =>
    have old := inv.sleepers
    grind [freed, waking, Sleeps, asleepInWait]

theorem inv_fallAsleep {addr : Bool} (inv : Inv init s) (place : s.pc p = .sleepy addr)
    (running : (s.proc p).state = .running) : Inv init (fallAsleep s p addr) := by
  have held : holds (s.pc p) = true := by
    rw [place]
    rfl
  have calm (j : Fin n) (parent : (s.proc j).parent = some p) : (s.proc j).state ≠ .zombie := by
    refine inv.scanned p j ?_ parent
    rw [place]
    trivial
  generalize ht : fallAsleep s p addr = t
  have proc : t.proc = update s.proc p { s.proc p with state := .sleeping, chan := .proc p } := by
    rw [← ht]
    rfl
  have pc : t.pc = update s.pc p (.asleep addr) := by rw [← ht]; rfl
  have next : t.nextpid = s.nextpid := by rw [← ht]; rfl
  have lock : t.waitLock = none := by rw [← ht]; rfl
  have slot (k : Fin n) := congrFun proc k
  have point (k : Fin n) := congrFun pc k
  simp only [update_apply] at slot point
  obtain ⟨pids, distinct⟩ := inv.same_pids proc next rfl (by rw [running]; exact ⟨nofun, nofun⟩)
  obtain ⟨forks, own, younger⟩ :=
    inv.same_forks proc pc (by rw [place]; rfl) rfl (inv.grown running) rfl
  constructor
  case lock => exact lock_left inv pc held lock rfl
  case place =>
    refine place_change inv proc pc ?_ fun away => absurd rfl away
    rw [proc, update_self]
    exact .inl ⟨rfl, rfl⟩
  case first =>
    have old := inv.first
    grind [alive]
  case pids => exact pids
  case nextpid =>
    rw [next]
    exact inv.nextpid
  case distinct => exact distinct
  case forks => exact forks
  case own => exact own
  case younger => exact younger
  case empty =>
    have old := inv.empty
    grind
  case parents =>
    have old := inv.parents
    grind [alive]
  case named =>
    have old := inv.named
    grind
  case orphans =>
    have old := inv.orphans
    grind [cleared]
  case stays =>
    have old := inv.stays
    grind [leaving]
  case scanned =>
    have old := inv.scanned
    grind [passed]
  case told =>
    intro q r here
    exact (inv.by_holder held pc (fun _ => holds_notified) here).2.elim
  case sleepers =>
    intro q j asleep parent zombie
    have parent : (s.proc j).parent = some q := by grind
    have zombie : (s.proc j).state = .zombie := by grind
    rcases eq_or_ne q p with rfl | away
    · exact absurd zombie (calm j parent)
    · have before : Sleeps s q := by
        obtain ⟨state, inWait⟩ := asleep
        grind [Sleeps, asleepInWait]
      obtain ⟨-, r, woke⟩ := inv.sleepers q j before parent zombie
      exact absurd woke (inv.unwoken held (by rw [place]; exact id) r)

theorem inv_woken (inv : Inv init s) (j : Fin n) (chan : Chan n) :
    Inv init (s.setProc j (woken (s.proc j) chan)) := by
  unfold woken
  split
  next hit =>
    refine inv.sched rfl rfl rfl rfl rfl rfl rfl (.inr ⟨rfl, by rw [hit.1]; rfl⟩) ?_ nofun
    have place := inv.place j
    cases here : s.pc j <;> rw [here] at place <;> simp_all [Place]
  next =>
    refine inv.sched rfl rfl rfl rfl rfl rfl rfl (.inl rfl) (inv.place j) fun asleep _ => asleep

/-- A process that sleeps in `wait` sleeps on itself. -/
theorem not_sleeps_woken (inv : Inv init s) (j : Fin n) :
    ¬ Sleeps (s.setProc j (woken (s.proc j) (.proc j))) j := by
  rintro ⟨state, inWait⟩
  have inWait : asleepInWait (s.pc j) = true := inWait
  have place := inv.place j
  cases here : s.pc j <;> rw [here] at place inWait <;> try cases inWait
  simp only [State.setProc, update_self] at state
  unfold woken at state
  simp only [Place] at place
  grind

/-- The places at which the process does nothing but its own. -/
def plain : Pc n → Bool
  | .user | .allocating _ | .exiting _ | .waiting _ | .killing .. => true
  | _ => false

/-- A process that has no child in the making goes to such a place. -/
theorem Inv.go_plain (inv : Inv init s) (proc : t.proc = s.proc) (next : t.nextpid = s.nextpid)
    (pc : t.pc = update s.pc p c) (lock : ∀ q, t.waitLock = some q ↔ holds (t.pc q) = true)
    (running : (s.proc p).state = .runnable ∨ (s.proc p).state = .running)
    (now : plain c = true) (fork : forking (s.pc p) = none) (stays : leaving c = true → p ≠ init)
    (wake : waking init (s.pc p) → ¬ Sleeps s init) : Inv init t := by
  have forks : forking c = none := by cases c <;> first | rfl | cases now
  have kept : recorded p c = none := by cases c <;> first | rfl | cases now
  have kept' : recorded p (s.pc p) = none := by
    cases here : s.pc p <;> first | rfl | (rw [here] at fork; cases fork)
  refine inv.move proc next pc lock ?_ (forks.trans fork.symm) (kept.trans kept'.symm) ?_ stays ?_ ?_
    ?_ fun woke => .inr (wake woke)
  · cases c <;> first | exact running | exact .inr running | cases now
  · intro j h
    cases c <;> first | exact h.elim | cases now
  · intro j h
    cases c <;> first | exact h.elim | cases now
  · intro j h
    cases c <;> first | exact h.elim | cases now
  · intro h
    cases c <;> simp [plain, asleepInWait] at now h

theorem wakeup_ok {chan : Chan n} {i : Nat} {next : Pc n} {done : State n}
    (h : wakeup s p chan i next done = .ok t) :
    (∃ j : Fin n, j.val = i ∧ (j = p ∧ t = s.goTo p next ∨
      j ≠ p ∧ t = (s.setProc j (woken (s.proc j) chan)).goTo p next)) ∨ n ≤ i ∧ t = done := by
  unfold wakeup at h
  split at h
  next inside =>
    refine .inl ⟨⟨i, inside⟩, rfl, ?_⟩
    split at h
    next same =>
      cases h
      exact .inl ⟨same, rfl⟩
    next other =>
      split at h
      next => cases h
      next =>
        cases h
        exact .inr ⟨other, rfl⟩
  next outside =>
    cases h
    exact .inr ⟨Nat.le_of_not_lt outside, rfl⟩

theorem inv_wakingInit {status : Int} {i k : Nat} (inv : Inv init s)
    (place : s.pc p = .wakingInit status i k) (running : (s.proc p).state = .running)
    (h : wakeup s p (.proc init) k (.wakingInit status i (k + 1))
      (s.goTo p (.reparenting status (i + 1))) = .ok t) : Inv init t := by
  have notInit : p ≠ init := inv.not_leaving (by rw [place]; rfl)
  have orphans := inv.orphans p
  rcases wakeup_ok h with ⟨j, rfl, ⟨rfl, rfl⟩ | ⟨other, rfl⟩⟩ | ⟨all, rfl⟩
  · refine inv.move rfl rfl rfl (lock_kept inv rfl rfl (by rw [place]; rfl)) (.inr running)
      (by rw [place]; rfl) (by rw [place]; rfl)
      (fun k here => orphans k (by rw [place]; exact here))
      (fun _ => notInit) nofun nofun nofun fun woke => .inl ?_
    rw [place] at woke
    have upTo : j.val ≤ init.val := woke
    have differs : j.val ≠ init.val := fun same => notInit (Fin.ext same)
    exact (by omega : j.val + 1 ≤ init.val)
  · have inv' := inv_woken inv j (.proc init)
    have state : ((s.setProc j (woken (s.proc j) (.proc init))).proc p).state = .running := by
      simpa [State.setProc, update_of_ne other.symm] using running
    refine inv'.move rfl rfl rfl (lock_kept inv' rfl rfl ?_) (.inr state) ?_ ?_
      (fun k here => inv'.orphans p k ?_) (fun _ => notInit) nofun nofun nofun fun woke => ?_
    · rw [show (s.setProc j (woken (s.proc j) (.proc init))).pc p = s.pc p from rfl, place]
      rfl
    · rw [show (s.setProc j (woken (s.proc j) (.proc init))).pc p = s.pc p from rfl, place]
      rfl
    · rw [show (s.setProc j (woken (s.proc j) (.proc init))).pc p = s.pc p from rfl, place]
      rfl
    · rw [show (s.setProc j (woken (s.proc j) (.proc init))).pc p = s.pc p from rfl, place]
      exact here
    · rw [show (s.setProc j (woken (s.proc j) (.proc init))).pc p = s.pc p from rfl, place] at woke
      have upTo : j.val ≤ init.val := woke
      rcases eq_or_ne j init with rfl | away
      · exact .inr (not_sleeps_woken inv j)
      · have differs : j.val ≠ init.val := fun same => away (Fin.ext same)
        exact .inl (by omega : j.val + 1 ≤ init.val)
  · refine inv.move rfl rfl rfl (lock_kept inv rfl rfl (by rw [place]; rfl)) (.inr running)
      (by rw [place]; rfl) (by rw [place]; rfl) (fun j here => orphans j ?_)
      (fun _ => notInit) nofun nofun nofun fun woke => ?_
    · rw [place]
      exact Nat.le_of_lt_succ here
    · rw [place] at woke
      have upTo : k ≤ init.val := woke
      have inside := init.isLt
      omega

theorem inv_wakingParent {status : Int} {k : Nat} (inv : Inv init s)
    (place : s.pc p = .wakingParent status k) (running : (s.proc p).state = .running)
    (h : wakeup s p (parentChan (s.proc p)) k (.wakingParent status (k + 1)) (die s p status) =
      .ok t) : Inv init t := by
  have notInit : p ≠ init := inv.not_leaving (by rw [place]; rfl)
  have orphans := inv.orphans p
  rcases wakeup_ok h with ⟨j, rfl, ⟨rfl, rfl⟩ | ⟨other, rfl⟩⟩ | ⟨all, rfl⟩
  · refine inv.move rfl rfl rfl (lock_kept inv rfl rfl (by rw [place]; rfl)) (.inr running)
      (by rw [place]; rfl) (by rw [place]; rfl)
      (fun k here => orphans k (by rw [place]; exact here))
      (fun _ => notInit) nofun (fun q here parent => ?_) nofun fun woke => ?_
    · have below : q.val < j.val + 1 := here
      have younger := (inv.parents j q parent).2.1
      have differs : q.val ≠ j.val := by
        intro same
        rw [Fin.ext same] at younger
        exact absurd younger (Nat.lt_irrefl _)
      refine inv.told j q ?_ parent
      rw [place]
      exact (by omega : q.val < j.val)
    · rw [place] at woke
      exact woke.elim
  · generalize hc : parentChan (s.proc p) = chan
    have inv' := inv_woken inv j chan
    have at_p : (s.setProc j (woken (s.proc j) chan)).pc p = .wakingParent status j.val := place
    have state : ((s.setProc j (woken (s.proc j) chan)).proc p).state = .running := by
      simpa [State.setProc, update_of_ne other.symm] using running
    have parents : ((s.setProc j (woken (s.proc j) chan)).proc p).parent = (s.proc p).parent := by
      simp [State.setProc, update_of_ne other.symm]
    refine inv'.move rfl rfl rfl (lock_kept inv' rfl rfl (by rw [at_p]; rfl)) (.inr state)
      (by rw [at_p]; rfl) (by rw [at_p]; rfl)
      (fun k here => inv'.orphans p k (by rw [at_p]; exact here))
      (fun _ => notInit) nofun (fun q here parent => ?_) nofun fun woke => ?_
    · have below : q.val < j.val + 1 := here
      rcases eq_or_ne q j with rfl | away
      · rw [parents] at parent
        have chan_q : chan = .proc q := by
          rw [← hc, parentChan, parent]
        rw [chan_q]
        exact not_sleeps_woken inv q
      · have differs : q.val ≠ j.val := fun same => away (Fin.ext same)
        refine inv'.told p q ?_ parent
        rw [at_p]
        exact (by omega : q.val < j.val)
    · rw [at_p] at woke
      exact woke.elim
  · exact inv_die inv place all running

theorem inv_leave_free {r : Int} (inv : Inv init s) (held : holds (s.pc p) = true)
    (running : (s.proc p).state = .running) (fork : forking (s.pc p) = none)
    (sleepless : ¬ waking init (s.pc p)) : Inv init (s.leave p r).unlock :=
  inv.go_plain (c := .user) rfl rfl rfl (lock_left inv rfl held rfl rfl) (.inr running) rfl fork
    nofun fun woke => absurd woke sleepless

theorem inv_scan {addr havekids ok : Bool} {i : Nat} (inv : Inv init s)
    (place : s.pc p = .scanning addr i havekids) (running : (s.proc p).state = .running)
    (h : scan s p addr i havekids ok = .ok t) : Inv init t := by
  have held : holds (s.pc p) = true := by
    rw [place]
    rfl
  have fork : forking (s.pc p) = none := by
    rw [place]
    rfl
  have kept : recorded p (s.pc p) = none := by
    rw [place]
    rfl
  have sleepless : ¬ waking init (s.pc p) := by
    rw [place]
    exact id
  have scanned := inv.scanned p
  rw [place] at scanned
  have onward {k : Bool} (calm : ∀ j : Fin n, j.val = i → (s.proc j).parent = some p →
      (s.proc j).state ≠ .zombie) : Inv init (s.goTo p (.scanning addr (i + 1) k)) := by
    refine inv.move rfl rfl rfl (lock_kept inv rfl rfl held.symm) (.inr running) fork.symm kept.symm
      nofun nofun (fun j here parent => ?_) nofun nofun fun woke => absurd woke sleepless
    have upTo : j.val < i + 1 := here
    rcases Nat.lt_succ_iff_lt_or_eq.mp upTo with below | last
    · exact scanned j below parent
    · exact calm j last parent
  unfold scan at h
  split at h
  next inside =>
    split at h
    next parent =>
      split at h
      next => cases h
      next =>
        split at h
        next zombie =>
          split at h
          next =>
            cases h
            exact inv_leave_free inv held running fork sleepless
          next =>
            cases h
            exact inv_reap inv place running zombie
        next living =>
          cases h
          refine onward fun j same _ => ?_
          rw [show j = ⟨i, inside⟩ from Fin.ext same]
          exact living
    next stranger =>
      cases h
      refine onward fun j same parent => absurd parent ?_
      rw [show j = ⟨i, inside⟩ from Fin.ext same]
      exact stranger
  next outside =>
    split at h
    next =>
      cases h
      refine inv.move rfl rfl rfl (lock_kept inv rfl rfl held.symm) (.inr running) fork.symm
        kept.symm nofun nofun (fun j _ parent => scanned j ?_ parent) nofun nofun
        fun woke => absurd woke sleepless
      exact Nat.lt_of_lt_of_le j.isLt (Nat.le_of_not_lt outside)
    next =>
      cases h
      exact inv_leave_free inv held running fork sleepless

theorem inv_acquire {c : Pc n} (inv : Inv init s) (now : holds c = true)
    (place : Place p (s.proc p) c) (fork : forking c = forking (s.pc p))
    (kept : recorded p c = recorded p (s.pc p)) (clear : ∀ j, ¬ cleared j c)
    (stays : leaving c = true → p ≠ init) (pass : ∀ j, ¬ passed j c) (told : ∀ j, ¬ notified j c)
    (sleep : asleepInWait c = false) (h : acquire s p c = .ok t) : Inv init t := by
  unfold acquire at h
  split at h
  next => cases h
  next free =>
    cases h
    refine inv.move rfl rfl rfl (lock_taken inv rfl free rfl now) place fork kept
      (fun j here => absurd here (clear j)) stays (fun j here => absurd here (pass j))
      (fun j here => absurd here (told j)) (fun asleep => ?_) fun woke => ?_
    · rw [sleep] at asleep
      cases asleep
    · have held := holds_waking woke
      rw [inv.free free p] at held
      cases held

theorem atSlot_ok {i : Nat} {body : Fin n → State n} {done : State n}
    (h : atSlot s i body done = .ok t) :
    (∃ j : Fin n, j.val = i ∧ s.locked j = false ∧ t = body j) ∨ n ≤ i ∧ t = done := by
  unfold atSlot at h
  split at h
  next inside =>
    split at h
    next => cases h
    next free =>
      cases h
      exact .inl ⟨⟨i, inside⟩, rfl, by simpa using free, rfl⟩
  next outside =>
    cases h
    exact .inr ⟨Nat.le_of_not_lt outside, rfl⟩

theorem inv_hit (inv : Inv init s) (j : Fin n) : Inv init (s.setProc j (hit (s.proc j))) := by
  have place := inv.place j
  by_cases asleep : (s.proc j).state = .sleeping
  · refine inv.sched rfl rfl rfl rfl rfl rfl rfl (.inr ⟨?_, by rw [asleep]; rfl⟩) ?_ ?_
    · simp [hit, asleep, alive]
    · cases here : s.pc j <;> rw [here] at place <;> simp_all [Place, hit]
    · simp [hit, asleep]
  · have same : (hit (s.proc j)).state = (s.proc j).state := if_neg asleep
    refine inv.sched rfl rfl rfl rfl rfl rfl rfl (.inl same) ?_ fun sleeps _ => same ▸ sleeps
    cases here : s.pc j <;> rw [here] at place <;> simp_all [Place, hit]

/-- A process moves on outside of the sections of `wait_lock`. -/
theorem Inv.quiet_move {d : Pc n} (inv : Inv init s) (place : s.pc p = d)
    (living : (s.proc p).state = .runnable ∨ (s.proc p).state = .running)
    (proc : t.proc = s.proc) (next : t.nextpid = s.nextpid) (pc : t.pc = update s.pc p c)
    (lock : t.waitLock = s.waitLock) (quiet : holds d = false) (fork : forking d = none)
    (now : plain c = true) (stays : leaving c = true → p ≠ init) : Inv init t := by
  have free : holds c = false := by cases c <;> first | rfl | cases now
  refine inv.go_plain proc next pc (lock_kept inv pc lock (by rw [place, quiet, free])) living now
    (by rw [place, fork]) stays fun woke => ?_
  rw [place] at woke
  rw [holds_waking woke] at quiet
  cases quiet

theorem inv_chan (inv : Inv init s) (running : (s.proc p).state = .running) :
    Inv init (s.setProc p { s.proc p with chan := .none }) := by
  have place := inv.place p
  refine inv.sched rfl rfl rfl rfl rfl rfl rfl (.inl rfl) ?_ fun asleep _ => asleep
  cases here : s.pc p <;> rw [here] at place <;> simp_all [Place]

theorem inv_allocate {i : Nat} (inv : Inv init s) (place : s.pc p = .allocating i)
    (running : (s.proc p).state = .running) (h : allocate s p i = .ok t) : Inv init t := by
  rcases atSlot_ok h with ⟨j, -, -, rfl⟩ | ⟨-, rfl⟩
  · split
    next unused => exact inv_found inv place running unused
    next =>
      exact inv.quiet_move (c := .allocating (i + 1)) place (.inr running) rfl rfl rfl rfl rfl
        rfl rfl
        nofun
  · exact inv.quiet_move (c := .user) place (.inr running) rfl rfl rfl rfl rfl rfl rfl nofun

theorem inv_fill {ok : Bool} {np : Fin n} (inv : Inv init s) (place : s.pc p = .filling np)
    (running : (s.proc p).state = .running) : Inv init (fill s p np ok) := by
  cases ok with
  | false => exact inv_unfound inv place running
  | true =>
    exact inv.move (c := .filled np (s.proc np).pid) rfl rfl rfl
      (lock_kept inv rfl rfl (by rw [place]; rfl)) (.inr running) (by rw [place]; rfl)
      (by rw [place]; rfl) nofun nofun nofun nofun nofun fun woke => by
        rw [place] at woke
        exact woke.elim

theorem inv_reparent {status : Int} {i : Nat} (inv : Inv init s)
    (place : s.pc p = .reparenting status i) (running : (s.proc p).state = .running) :
    Inv init (reparent s init p status i) := by
  have notInit : p ≠ init := inv.not_leaving (by rw [place]; rfl)
  have orphans := inv.orphans p
  rw [place] at orphans
  have sleepless : ¬ waking init (s.pc p) := by
    rw [place]
    exact id
  unfold reparent
  split
  next inside =>
    split
    next parent => exact inv_adopts inv place rfl running parent
    next stranger =>
      refine inv.move (c := .reparenting status (i + 1)) rfl rfl rfl
        (lock_kept inv rfl rfl (by rw [place]; rfl)) (.inr running) (by rw [place]; rfl)
        (by rw [place]; rfl) (fun j here => ?_) (fun _ => notInit) nofun nofun nofun
        fun woke => absurd woke sleepless
      have upTo : j.val < i + 1 := here
      rcases Nat.lt_succ_iff_lt_or_eq.mp upTo with below | last
      · exact orphans j below
      · rw [show j = ⟨i, inside⟩ from Fin.ext last]
        exact stranger
  next outside =>
    refine inv.move (c := .wakingParent status 0) rfl rfl rfl
      (lock_kept inv rfl rfl (by rw [place]; rfl)) (.inr running) (by rw [place]; rfl)
      (by rw [place]; rfl) (fun j _ => orphans j ?_) (fun _ => notInit) nofun
      (fun q here => absurd here (Nat.not_lt_zero _)) nofun fun woke => absurd woke sleepless
    exact Nat.lt_of_lt_of_le j.isLt (Nat.le_of_not_lt outside)

theorem inv_decide {addr : Bool} (inv : Inv init s) (place : s.pc p = .deciding addr)
    (running : (s.proc p).state = .running) :
    Inv init (s.leave p (-1)).unlock ∧ Inv init (s.goTo p (.sleepy addr)) := by
  have scanned := inv.scanned p
  rw [place] at scanned
  constructor
  · exact inv_leave_free inv (by rw [place]; rfl) running (by rw [place]; rfl)
      (by rw [place]; exact id)
  · exact inv.move (c := .sleepy addr) rfl rfl rfl (lock_kept inv rfl rfl (by rw [place]; rfl))
      (.inr running) (by rw [place]; rfl) (by rw [place]; rfl) nofun nofun
      (fun j _ => scanned j trivial) nofun nofun fun woke => by
        rw [place] at woke
        exact woke.elim

theorem inv_kill {pid i : Nat} (inv : Inv init s) (place : s.pc p = .killing pid i)
    (running : (s.proc p).state = .running) (h : atSlot s i (fun j =>
      if (s.proc j).pid = pid then (s.setProc j (hit (s.proc j))).leave p 0
      else s.goTo p (.killing pid (i + 1))) (s.leave p (-1)) = .ok t) : Inv init t := by
  rcases atSlot_ok h with ⟨j, -, -, rfl⟩ | ⟨-, rfl⟩
  · split
    next =>
      have living : ((s.setProc j (hit (s.proc j))).proc p).state = .running := by
        rcases eq_or_ne p j with rfl | other
        · simp [State.setProc, hit, running]
        · simpa [State.setProc, update_of_ne other] using running
      exact (inv_hit inv j).quiet_move (c := .user) (d := .killing pid i) place (.inr living) rfl rfl
        rfl rfl rfl rfl rfl nofun
    next =>
      exact inv.quiet_move (c := .killing pid (i + 1)) place (.inr running) rfl rfl rfl rfl rfl rfl
        rfl nofun
  · exact inv.quiet_move (c := .user) place (.inr running) rfl rfl rfl rfl rfl rfl rfl nofun

theorem inv_go {ok : Bool} (inv : Inv init s) (running : (s.proc p).state = .running)
    (h : go init s p ok = .ok t) : Inv init t := by
  have still : ((s.setProc p { s.proc p with chan := .none }).proc p).state = .running := by
    simpa [State.setProc] using running
  unfold go at h
  split at h
  next => cases h
  next => cases h
  next place =>
    cases h
    exact (inv_chan inv running).quiet_move (c := .user) (d := .blocked) place (.inr still) rfl rfl
      rfl rfl rfl rfl rfl nofun
  next place => exact inv_allocate inv place running h
  next place =>
    cases h
    exact inv_fill inv place running
  next place =>
    split at h
    next free =>
      cases h
      exact inv_adopt inv place running free
    next => cases h
  next place =>
    split at h
    next => cases h
    next =>
      cases h
      exact inv_start inv place running
  next status place =>
    have notInit : p ≠ init := inv.not_leaving (by rw [place]; rfl)
    exact inv_acquire (c := .reparenting status 0) inv rfl (.inr running)
      (by rw [place]; rfl) (by rw [place]; rfl) (fun j => Nat.not_lt_zero _) (fun _ => notInit)
      (fun _ => id) (fun _ => id) rfl h
  next place =>
    cases h
    exact inv_reparent inv place running
  next place => exact inv_wakingInit inv place running h
  next place =>
    split at h
    next => exact inv_wakingParent inv place running h
    next => cases h
  next addr place =>
    exact inv_acquire (c := .scanning addr 0 false) inv rfl (.inr running)
      (by rw [place]; rfl) (by rw [place]; rfl) (fun _ => id) nofun (fun j => Nat.not_lt_zero _)
      (fun _ => id) rfl h
  next place => exact inv_scan inv place running h
  next place =>
    split at h
    next => cases h
    next =>
      split at h
      next =>
        cases h
        exact (inv_decide inv place running).1
      next =>
        cases h
        exact (inv_decide inv place running).2
  next place =>
    split at h
    next => cases h
    next =>
      cases h
      exact inv_fallAsleep inv place running
  next addr place =>
    cases h
    exact (inv_chan inv running).quiet_move (c := .waiting addr) (d := .asleep addr) place
      (.inr still) rfl rfl rfl rfl rfl rfl rfl nofun
  next place => exact inv_kill inv place running h

theorem inv_call {e : Event n} (inv : Inv init s) (running : (s.proc e.proc).state = .running)
    (user : s.pc e.proc = .user) (h : call init s e = .ok t) : Inv init t := by
  cases e with
  | fork p =>
    cases h
    exact inv.quiet_move (c := .allocating 0) user (.inr running) rfl rfl rfl rfl rfl rfl rfl nofun
  | exit p status =>
    simp only [call] at h
    split at h
    next => cases h
    next notInit =>
      cases h
      exact inv.quiet_move (c := .exiting status) user (.inr running) rfl rfl rfl rfl rfl rfl rfl
        fun _ => notInit
  | wait p addr =>
    cases h
    exact inv.quiet_move (c := .waiting addr) user (.inr running) rfl rfl rfl rfl rfl rfl rfl nofun
  | kill p pid =>
    cases h
    exact inv.quiet_move (c := .killing pid 0) user (.inr running) rfl rfl rfl rfl rfl rfl rfl nofun
  | block p =>
    cases h
    have running : (s.proc p).state = .running := running
    have user : s.pc p = .user := user
    have first : Inv init (s.goTo p .blocked) := by
      refine inv.move (c := .blocked) rfl rfl rfl (lock_kept inv rfl rfl (by rw [user]; rfl))
        (.inr (.inr running)) (by rw [user]; rfl) (by rw [user]; rfl) nofun nofun nofun nofun nofun
        fun woke => ?_
      rw [user] at woke
      exact woke.elim
    have at_p : (s.goTo p .blocked).pc p = .blocked := update_self ..
    refine first.sched (j := p) (x := { s.proc p with state := .sleeping, chan := .other }) rfl rfl
      rfl rfl rfl rfl rfl (.inr ⟨rfl, ?_⟩) ?_ fun _ inWait => ?_
    · rw [show ((s.goTo p .blocked).proc p).state = .running from running]
      rfl
    · rw [at_p]
      exact .inl ⟨rfl, rfl⟩
    · rw [at_p] at inWait
      cases inWait
  | awake p => cases h
  | dispatch p => cases h
  | yield p => cases h
  | go p ok => cases h

theorem inv_switch {old new : ProcState} (inv : Inv init s) (alive_old : alive old = true)
    (now : new = .runnable ∨ new = .running) (h : switch s p old new = .ok t) : Inv init t := by
  unfold switch at h
  split at h
  next ok =>
    cases h
    have place := inv.place p
    have alive_new : alive new = true := by rcases now with rfl | rfl <;> rfl
    refine inv.sched rfl rfl rfl rfl rfl rfl rfl
      (.inr ⟨alive_new, by rw [ok.1]; exact alive_old⟩) ?_ ?_
    · have was := ok.1
      rcases now with rfl | rfl <;> cases here : s.pc p <;> rw [here] at place <;>
        cases old <;> simp_all [Place, alive]
    · rcases now with rfl | rfl <;> nofun
  next => cases h

theorem inv_step {e : Event n} (inv : Inv init s) (h : step init s e = .ok t) : Inv init t := by
  unfold step at h
  split at h
  next =>
    split at h
    next => exact inv_switch inv rfl (.inl rfl) h
    next => cases h
  next => exact inv_switch inv rfl (.inr rfl) h
  next =>
    split at h
    next => cases h
    next => exact inv_switch inv rfl (.inl rfl) h
  next =>
    split at h
    next running => exact inv_go inv running h
    next => cases h
  next =>
    split at h
    next ok => exact inv_call inv ok.1 ok.2 h
    next => cases h

theorem inv_boot (init : Fin n) : Inv init (boot init) where
  lock := fun p => by
    by_cases first : p = init <;> simp [boot, first, holds]
  place := fun j => by
    by_cases first : j = init <;> simp [boot, first, Place]
  first := by simp [boot, alive]
  pids := fun j real other => by simp [boot, other] at real
  nextpid := by simp [boot]
  distinct := fun j k hj hk _ => by
    have isFirst (l : Fin n) (real : ((boot init).proc l).state ≠ .unused) : l = init := by
      by_contra other
      simp [boot, other] at real
    rw [isFirst j hj, isFirst k hk]
  forks := fun p np h => by
    by_cases first : p = init <;> simp [boot, first, forking] at h
  own := fun p q np h => by
    by_cases first : p = init <;> simp [boot, first, forking] at h
  younger := fun p np h => by
    by_cases first : p = init <;> simp [boot, first, forking] at h
  empty := fun _ _ => rfl
  parents := nofun
  named := fun j other real => by simp [boot, other] at real
  orphans := fun _ _ _ => nofun
  stays := by simp [boot, leaving]
  scanned := fun _ _ _ => nofun
  told := fun _ _ _ => nofun
  sleepers := fun _ _ _ => nofun

theorem inv_run {es : List (Event n)} (h : run (step init) (boot init) es = .ok s) : Inv init s :=
  run_invariant_all (fun _ _ _ inv h => inv_step inv h) (inv_boot init) h

def ParentOf (s : State n) (j q : Fin n) : Prop := (s.proc j).parent = some q

/-- The parents of a process lead to the first one. -/
def Descends (init : Fin n) (s : State n) (j : Fin n) : Prop :=
  Relation.ReflTransGen (ParentOf s) j init

structure Tree (init : Fin n) (s : State n) : Prop where
  root : (s.proc init).parent = none ∧ (s.proc init).state ≠ .unused ∧
    (s.proc init).state ≠ .zombie
  /-- A parent is there, and is the process that called `fork` or the first process. -/
  parents : ∀ j q, ParentOf s j q → (s.proc q).state ≠ .unused ∧ (s.proc q).state ≠ .zombie ∧
    (q = init ∨ (s.proc q).pid = (s.proc j).forker)
  pids : ∀ j k, (s.proc j).state ≠ .unused → (s.proc k).state ≠ .unused →
    (s.proc j).pid = (s.proc k).pid → j = k
  /-- Only a process that `fork` has not finished has no parent. -/
  named : ∀ j, j ≠ init → (s.proc j).parent = none →
    (s.proc j).state = .unused ∨ (s.proc j).state = .used
  descends : ∀ j, (s.proc j).state ≠ .unused → j = init ∨ (s.proc j).parent ≠ none →
    Descends init s j
  older : ∀ j q, ParentOf s j q → (s.proc q).pid < (s.proc j).pid
  zombies : ∀ j, (s.proc j).state = .zombie → (s.proc j).parent ≠ none ∧ Descends init s j

theorem alive_ne {a : ProcState} (h : alive a = true) : a ≠ .unused ∧ a ≠ .zombie ∧ a ≠ .used := by
  cases a <;> simp [alive] at h ⊢

/-- Parents have smaller pids, so the way up ends, and only the first process has no parent. -/
theorem Inv.descends (inv : Inv init s) (pid : Nat) :
    ∀ j, (s.proc j).pid = pid → j = init ∨ (s.proc j).parent ≠ none → Descends init s j := by
  induction pid using Nat.strongRecOn with
  | ind pid ih =>
    intro j same named
    rcases named with rfl | named
    · exact .refl
    · obtain ⟨q, parent⟩ := Option.ne_none_iff_exists'.mp named
      obtain ⟨living, older, -⟩ := inv.parents j q parent
      obtain ⟨real, -, notUsed⟩ := alive_ne living
      have above : q = init ∨ (s.proc q).parent ≠ none := by
        by_cases first : q = init
        · exact .inl first
        · exact .inr (inv.named q first real notUsed)
      exact .head parent (ih (s.proc q).pid (same ▸ older) q rfl above)

theorem Inv.tree (inv : Inv init s) : Tree init s where
  root := ⟨inv.first.2.1, (alive_ne inv.first.1).1, (alive_ne inv.first.1).2.1⟩
  parents := fun j q parent =>
    have here := inv.parents j q parent
    ⟨(alive_ne here.1).1, (alive_ne here.1).2.1, here.2.2⟩
  pids := inv.distinct
  named := by
    intro j other orphan
    by_cases unused : (s.proc j).state = .unused
    · exact .inl unused
    · by_contra notUsed
      exact inv.named j other unused (fun used => notUsed (.inr used)) orphan
  descends := fun j _ => inv.descends _ j rfl
  older := fun j q parent => (inv.parents j q parent).2.1
  zombies := by
    intro j zombie
    have notFirst : j ≠ init := by
      rintro rfl
      exact (alive_ne inv.first.1).2.1 zombie
    have named := inv.named j notFirst (by rw [zombie]; nofun) (by rw [zombie]; nofun)
    exact ⟨named, inv.descends _ j rfl (.inr named)⟩

/-- In every state that the processes reach, `wait_lock` free or not, the parents form a tree. -/
theorem parents_form_tree {es : List (Event n)} (h : run (step init) (boot init) es = .ok s) :
    Tree init s := (inv_run h).tree

/-- `fork` by the process in slot `p`, of a table of which slot `i` is the first free one. -/
def forks (p : Fin n) (i : Nat) : List (Event n) :=
  .fork p :: List.replicate (i + 4) (.go p true)

/-- A child of the first process has a child and exits. -/
def orphaned (p q : Fin n) : List (Event n) :=
  .dispatch p :: forks p 1 ++ .dispatch q :: forks q 2 ++
    .exit q 7 :: List.replicate 13 (.go q true)

theorem parents_form_tree_orphaned : ∃ s, run (step 0) (boot 0) (orphaned (0 : Fin 3) 1) = .ok s ∧
    (s.proc 1).state = .zombie ∧ (s.proc 2).parent = some 0 ∧ s.waitLock = none ∧ Tree 0 s := by
  have ran : Yields (run (step 0) (boot 0) (orphaned (0 : Fin 3) 1)) fun s =>
      (s.proc 1).state = .zombie ∧ (s.proc 2).parent = some 0 ∧ s.waitLock = none := by
    decide +kernel
  obtain ⟨s, h, zombie, parent, free⟩ := ran
  exact ⟨s, h, zombie, parent, free, parents_form_tree h⟩

end ChildFamily
