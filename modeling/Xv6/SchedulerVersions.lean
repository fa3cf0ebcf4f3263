import Xv6.ProcessThreads

/-!
# The round-robin schedulers of the two projects

`RR_scheduler` of `project1c` was constructed from `scheduler` of `project1.b`.
Both are run over the same table with the same behaviour of the processes: the
turn of a slot says what interrupts do before it, and what the process does if
the scheduler switches to it. The order of the dispatches and every field but
`runCount` agree; `runCount` lags by the dispatches since the slot was freed.
-/

namespace SchedulerVersions

open ProcTable ProcessThreads EventRuns Outcomes

/-- What a running process does without giving up the CPU. -/
inductive Act where
  | ecall | interrupt | unexpected
  | fork (memory copied : Bool)
  /-- A turn of the loop in `wait` that does not go to sleep. -/
  | wait (delivered : Bool)
  | kill (pid : Int)
  /-- Also by an interrupt handler. -/
  | wakeup (self : Option Slot) (chan : Chan)

/-- How it gives up the CPU. -/
inductive Leave where
  | usertimer | kerneltimer
  | sleep (chan : Chan)
  | exit (status : Int)

structure Turn where
  /-- Wakeups by interrupts while the scheduler is running. -/
  interrupts : List Chan
  acts : List Act
  leave : Leave

structure State where
  table : Table
  /-- The slots switched to, the latest first. -/
  dispatched : List Slot

/-- The turns of the slots in one pass over the table. -/
abbrev Behaviour := Slot → Turn

def trapped (p : Proc) (syscall : Bool) : Proc :=
  { p with
    trapCount := p.trapCount + 1,
    systemcallCount := p.systemcallCount + if syscall then 1 else 0,
    interruptCount := p.interruptCount + if syscall then 0 else 1 }

def act (i : Slot) (t : Table) : Act → Table
  | .ecall => t.set i (trapped (t.proc i) true)
  | .interrupt => t.set i (trapped (t.proc i) false)
  | .unexpected =>
    t.set i { t.proc i with trapCount := (t.proc i).trapCount + 1, killed := true }
  | .fork memory copied => (ProcTable.fork t i memory copied).2
  | .wait delivered =>
    match ProcTable.wait t i delivered with
    | (some _, t') => t'
    | (none, _) => t
  | .kill pid => (ProcTable.kill t pid).2
  | .wakeup self chan => ProcTable.wakeup t self (some chan)

def preempted (p : Proc) : Proc := { p with preemptCount := p.preemptCount + 1 }

def leave (i : Slot) (t : Table) : Leave → Except Panic Table
  | .usertimer =>
    let t := t.set i (preempted (trapped (t.proc i) false))
    .ok (ProcTable.yield t i)
  | .kerneltimer =>
    let t := t.set i (preempted (t.proc i))
    .ok (ProcTable.yield t i)
  | .sleep chan => .ok (ProcTable.sleep t i chan)
  | .exit status =>
    if i = initproc then .error .initExiting else .ok (ProcTable.exit t i status)

/-- The table when the scheduler has acquired the lock of the slot. -/
def arrive (t : Table) (turn : Turn) : Table :=
  turn.interrupts.foldl (fun t chan => wakeup t none (some chan)) t

/-- From the switch to process `i` until it switches back. -/
def execute (v : Version) (i : Slot) (turn : Turn) (t : Table) : Except Panic Table :=
  leave i (turn.acts.foldl (act i) (t.set i (dispatched v (t.proc i)))) turn.leave

/-- The loop body of `scheduler` and of `RR_scheduler`. -/
def visit (v : Version) (s : State) (e : Slot × Turn) : Except Panic State :=
  let t := arrive s.table e.2
  if (t.proc e.1).state = .runnable then do
    let t ← execute v e.1 e.2 t
    pure ⟨t, e.1 :: s.dispatched⟩
  else .ok ⟨t, s.dispatched⟩

def visits (bs : List Behaviour) : List (Slot × Turn) :=
  bs.flatMap fun b => (List.finRange nproc).map fun i => (i, b i)

/-- The scheduler, started on a table. -/
def start (t : Table) : State := ⟨t, []⟩

/-- The slot whose turn it is cannot be dispatched. -/
def Idle (s : State) (e : Slot × Turn) : Prop :=
  ((arrive s.table e.2).proc e.1).state ≠ .runnable

instance (s : State) (e : Slot × Turn) : Decidable (Idle s e) :=
  inferInstanceAs (Decidable (_ ≠ _))

def addRuns (p : Proc) (x : BitVec 32) : Proc := { p with runCount := p.runCount + x }

def addAll (t : Table) (d : Slot → BitVec 32) : Table :=
  { t with proc := fun i => addRuns (t.proc i) (d i) }

theorem table_ext {t u : Table} (proc : ∀ j, t.proc j = u.proc j)
    (nextpid : t.nextpid = u.nextpid) : t = u := by
  obtain ⟨p, n⟩ := t
  obtain ⟨q, m⟩ := u
  obtain rfl : p = q := funext proc
  obtain rfl : n = m := nextpid
  rfl

variable {t : Table} {d : Slot → BitVec 32} {i j : Slot}

@[simp] theorem addAll_proc (t : Table) (d : Slot → BitVec 32) (i : Slot) :
    (addAll t d).proc i = addRuns (t.proc i) (d i) := rfl

@[simp] theorem addAll_nextpid (t : Table) (d : Slot → BitVec 32) :
    (addAll t d).nextpid = t.nextpid := rfl

theorem set_addAll (t : Table) (d : Slot → BitVec 32) (j : Slot) (p : Proc) (x : BitVec 32) :
    (addAll t d).set j (addRuns p x) = addAll (t.set j p) (Function.update d j x) := by
  refine table_ext (fun k => ?_) rfl
  by_cases h : k = j
  · subst h
    simp
  · simp [h]

/-- A change of one slot that leaves its lag alone. -/
theorem set_addAll_same (t : Table) (d : Slot → BitVec 32) (j : Slot) (p : Proc) :
    (addAll t d).set j (addRuns p (d j)) = addAll (t.set j p) d := by
  rw [set_addAll, Function.update_eq_self]

/-- A freed slot has no lag. -/
theorem set_addAll_free (t : Table) (d : Slot → BitVec 32) (j : Slot) (p : Proc) :
    (addAll t d).set j (freeproc p) = addAll (t.set j (freeproc p)) (Function.update d j 0) := by
  rw [← set_addAll]
  congr 1

theorem wakeup_addAll (t : Table) (d : Slot → BitVec 32) (self : Option Slot)
    (chan : Option Chan) :
    wakeup (addAll t d) self chan = addAll (wakeup t self chan) d := by
  refine table_ext (fun j => ?_) rfl
  simp only [wakeup, addAll_proc]
  by_cases h : some j ≠ self ∧ (t.proc j).state = .sleeping ∧ (t.proc j).chan = chan
  · simp [addRuns, h]
  · simp [addRuns, h]

theorem arrive_addAll (t : Table) (d : Slot → BitVec 32) (turn : Turn) :
    arrive (addAll t d) turn = addAll (arrive t turn) d := by
  unfold arrive
  induction turn.interrupts generalizing t with
  | nil => rfl
  | cons chan chans ih => simp only [List.foldl_cons, wakeup_addAll, ih]

theorem reparent_addAll (t : Table) (d : Slot → BitVec 32) (i : Slot) :
    reparent (addAll t d) i = addAll (reparent t i) d := by
  let moved (t : Table) : Table := { t with
    proc := fun j =>
      if (t.proc j).parent = some i then { t.proc j with parent := some initproc }
      else t.proc j }
  have same : moved (addAll t d) = addAll (moved t) d := by
    refine table_ext (fun j => ?_) rfl
    by_cases h : (t.proc j).parent = some i
    · simp [moved, addRuns, h]
    · simp [moved, addRuns, h]
  have children : (∃ j, ((addAll t d).proc j).parent = some i) ↔ ∃ j, (t.proc j).parent = some i :=
    Iff.rfl
  have split_ (t : Table) : reparent t i =
      if ∃ j, (t.proc j).parent = some i then wakeup (moved t) (some i) (some (.proc initproc))
      else moved t := rfl
  simp only [split_, same, children, wakeup_addAll]
  split <;> rfl

/-- The operation `f` of process `i` carries a lag along, but where it frees a slot. -/
structure Carries (i : Slot) (f : Table → Table) : Prop where
  lag : ∀ t d, (t.proc i).state = .running →
    ∃ d', f (addAll t d) = addAll (f t) d' ∧ d' i = d i ∧ ∀ j, d' j = d j ∨ d' j = 0
  running : ∀ t, (t.proc i).state = .running → ((f t).proc i).state = .running

theorem Carries.comp {f g : Table → Table} (hf : Carries i f) (hg : Carries i g) :
    Carries i fun t => g (f t) := by
  refine ⟨fun t d h => ?_, fun t h => hg.running _ (hf.running t h)⟩
  obtain ⟨d', same, own, others⟩ := hf.lag t d h
  obtain ⟨d'', same', own', others'⟩ := hg.lag (f t) d' (hf.running t h)
  refine ⟨d'', by rw [same, same'], own'.trans own, fun j => ?_⟩
  rcases others' j with kept | zero
  · rw [kept]
    exact others j
  · exact Or.inr zero

theorem carries_foldl {A : Type} {f : Table → A → Table} (h : ∀ a, Carries i fun t => f t a)
    (as : List A) : Carries i fun t => as.foldl f t := by
  induction as with
  | nil => exact ⟨fun t d _ => ⟨d, rfl, rfl, fun _ => Or.inl rfl⟩, fun _ h => h⟩
  | cons a as ih => exact (h a).comp ih

/-- An operation that frees no slot. -/
theorem Carries.of_exact {f : Table → Table} (lag : ∀ t d, f (addAll t d) = addAll (f t) d)
    (running : ∀ t, (t.proc i).state = .running → ((f t).proc i).state = .running) :
    Carries i f :=
  ⟨fun t d _ => ⟨d, lag t d, rfl, fun _ => Or.inl rfl⟩, running⟩

/-- A change of the process itself. -/
theorem carries_self {f : Proc → Proc} (lag : ∀ p x, f (addRuns p x) = addRuns (f p) x)
    (running : ∀ p, p.state = .running → (f p).state = .running) :
    Carries i fun t => t.set i (f (t.proc i)) := by
  refine .of_exact (fun t d => ?_) fun t h => by simpa using running _ h
  rw [addAll_proc, lag, set_addAll_same]

/-- What `kill` does to the slot it finds. -/
def struck (p : Proc) : Proc :=
  if p.state = .sleeping then { p with killed := true, state := .runnable }
  else { p with killed := true }

theorem struck_addRuns (p : Proc) (x : BitVec 32) :
    struck (addRuns p x) = addRuns (struck p) x := by
  by_cases h : p.state = .sleeping <;> simp [struck, addRuns, h]

theorem kill_carries (pid : Int) : Carries i fun t => (kill t pid).2 := by
  have found (t : Table) : (kill t pid).2 =
      ((List.finRange nproc).find? fun j => (t.proc j).pid = pid).elim t
        fun j => t.set j (struck (t.proc j)) := by
    unfold kill
    cases (List.finRange nproc).find? fun j => (t.proc j).pid = pid <;> rfl
  refine .of_exact (fun t d => ?_) fun t h => ?_
  · have same : ((List.finRange nproc).find? fun j => ((addAll t d).proc j).pid = pid) =
        (List.finRange nproc).find? fun j => (t.proc j).pid = pid := rfl
    rw [found, found, same]
    cases (List.finRange nproc).find? fun j => (t.proc j).pid = pid with
    | none => rfl
    | some j =>
      simp only [addAll_proc, struck_addRuns]
      exact set_addAll_same t d j _
  · rw [found]
    cases (List.finRange nproc).find? fun j => (t.proc j).pid = pid with
    | none => exact h
    | some j =>
      by_cases own : i = j
      · subst own
        simp [struck, h]
      · simpa [own] using h

theorem freed_lag {x : BitVec 32} (apart : i ≠ j) (zero : x = 0) :
    Function.update d j x i = d i ∧ ∀ k, Function.update d j x k = d k ∨
      Function.update d j x k = 0 := by
  refine ⟨by simp [apart], fun k => ?_⟩
  by_cases h : k = j
  · subst h
    simp [zero]
  · simp [h]

theorem fork_carries (memory copied : Bool) :
    Carries i fun t => (ProcTable.fork t i memory copied).2 := by
  have apart {t : Table} {j : Slot} (slot : unusedSlot t = some j)
      (h : (t.proc i).state = .running) : i ≠ j := by
    rintro rfl
    have empty := unusedSlot_state slot
    simp [h] at empty
  constructor
  · intro t d h
    have same : unusedSlot (addAll t d) = unusedSlot t := rfl
    unfold ProcTable.fork allocproc
    rw [same]
    cases slot : unusedSlot t with
    | none => exact ⟨d, rfl, rfl, fun _ => Or.inl rfl⟩
    | some j =>
      have other := apart slot h
      cases memory with
      | false =>
        refine ⟨Function.update d j 0, ?_, freed_lag other rfl⟩
        exact set_addAll_free { t with nextpid := t.nextpid + 1 } d j _
      | true =>
        cases copied with
        | false =>
          refine ⟨Function.update d j 0, ?_, freed_lag other rfl⟩
          refine table_ext (fun k => ?_) rfl
          by_cases hk : k = j
          · subst hk
            simp [addRuns, freeproc]
          · simp [hk, addRuns, Table.set]
        | true =>
          refine ⟨d, ?_, rfl, fun _ => Or.inl rfl⟩
          refine table_ext (fun k => ?_) rfl
          by_cases hk : k = j
          · subst hk
            simp [addRuns]
          · simp [hk, addRuns, Table.set]
  · intro t h
    unfold ProcTable.fork allocproc
    cases slot : unusedSlot t with
    | none => exact h
    | some j =>
      have other := apart slot h
      cases memory <;> cases copied <;> simpa [other, Table.set] using h

theorem wait_carries (delivered : Bool) :
    Carries i fun t => act i t (.wait delivered) := by
  have turn (t : Table) : act i t (.wait delivered) =
      (zombieChild t i).elim t
        fun j => if delivered then t.set j (freeproc (t.proc j)) else t := by
    unfold act ProcTable.wait
    cases zombieChild t i with
    | none =>
      simp only
      split <;> rename_i h <;> split at h <;> simp_all
    | some j => cases delivered <;> rfl
  have apart {t : Table} {j : Slot} (slot : zombieChild t i = some j)
      (h : (t.proc i).state = .running) : i ≠ j := by
    rintro rfl
    have dead := (zombieChild_state slot).2
    simp [h] at dead
  constructor
  · intro t d h
    have same : zombieChild (addAll t d) i = zombieChild t i := rfl
    rw [turn, turn, same]
    cases slot : zombieChild t i with
    | none => exact ⟨d, rfl, rfl, fun _ => Or.inl rfl⟩
    | some j =>
      cases delivered with
      | false => exact ⟨d, rfl, rfl, fun _ => Or.inl rfl⟩
      | true =>
        exact ⟨Function.update d j 0, set_addAll_free t d j _, freed_lag (apart slot h) rfl⟩
  · intro t h
    rw [turn]
    cases slot : zombieChild t i with
    | none => exact h
    | some j =>
      cases delivered with
      | false => exact h
      | true => simpa [apart slot h] using h

theorem act_carries (a : Act) : Carries i fun t => act i t a := by
  cases a with
  | ecall => exact carries_self (f := fun p => trapped p true) (fun _ _ => rfl) fun _ h => h
  | interrupt => exact carries_self (f := fun p => trapped p false) (fun _ _ => rfl) fun _ h => h
  | unexpected =>
    exact carries_self (f := fun p => { p with trapCount := p.trapCount + 1, killed := true })
      (fun _ _ => rfl) fun _ h => h
  | fork memory copied => exact fork_carries memory copied
  | wait delivered => exact wait_carries delivered
  | kill pid => exact kill_carries pid
  | wakeup self chan =>
    refine .of_exact (fun t d => wakeup_addAll t d self _) fun t h => ?_
    simp [act, wakeup, h]

theorem yield_addAll (t : Table) (d : Slot → BitVec 32) (i : Slot) :
    yield (addAll t d) i = addAll (yield t i) d :=
  set_addAll_same t d i { t.proc i with state := .runnable, context := .yield }

theorem sleep_addAll (t : Table) (d : Slot → BitVec 32) (i : Slot) (chan : Chan) :
    sleep (addAll t d) i chan = addAll (sleep t i chan) d :=
  set_addAll_same t d i { t.proc i with
    sleepCount := (t.proc i).sleepCount + 1,
    chan := some chan, state := .sleeping, context := .sleep }

theorem exit_addAll (t : Table) (d : Slot → BitVec 32) (i : Slot) (status : Int) :
    ProcTable.exit (addAll t d) i status = addAll (ProcTable.exit t i status) d := by
  have woken (t : Table) : ProcTable.exit t i status =
      let t := wakeup (reparent t i) (some i) (((reparent t i).proc i).parent.map .proc)
      t.set i { t.proc i with xstate := status, state := .zombie, context := .exit } := rfl
  rw [woken, woken, reparent_addAll]
  have parent : ((addAll (reparent t i) d).proc i).parent = ((reparent t i).proc i).parent := rfl
  rw [parent, wakeup_addAll]
  exact set_addAll_same _ d i { (wakeup _ _ _).proc i with
    xstate := status, state := .zombie, context := .exit }

/-- The way a process gives up the CPU frees no slot. -/
theorem leave_addAll (t : Table) (d : Slot → BitVec 32) (i : Slot) (how : Leave) :
    leave i (addAll t d) how = (leave i t how).map fun t => addAll t d := by
  cases how with
  | usertimer =>
    have traps := set_addAll_same t d i (preempted (trapped (t.proc i) false))
    exact congrArg Except.ok ((congrArg (yield · i) traps).trans (yield_addAll _ d i))
  | kerneltimer =>
    have counts := set_addAll_same t d i (preempted (t.proc i))
    exact congrArg Except.ok ((congrArg (yield · i) counts).trans (yield_addAll _ d i))
  | sleep chan => exact congrArg Except.ok (sleep_addAll t d i chan)
  | exit status =>
    by_cases first : i = initproc
    · simp [leave, first, Except.map]
    · simp [leave, first, Except.map, exit_addAll]

/-- Same dispatches, and a table that is the other but for the lag. -/
structure Lag (b c : State) (d : Slot → BitVec 32) : Prop where
  dispatched : b.dispatched = c.dispatched
  table : b.table = addAll c.table d

/-- The lag after a visit: one more for the slot it dispatches. -/
structure Lags (i : Slot) (d d' : Slot → BitVec 32) : Prop where
  own : d' i = d i + 1
  others : ∀ j, j ≠ i → d' j = d j ∨ d' j = 0

theorem dispatched_addRuns (p : Proc) (x : BitVec 32) :
    dispatched .project1b (addRuns p x) = addRuns (dispatched .project1c p) (x + 1) := by
  simp only [dispatched, addRuns, swtchTo, BitVec.add_assoc]
  rfl

theorem dispatch_addAll (t : Table) (d : Slot → BitVec 32) (i : Slot) :
    (addAll t d).set i (dispatched .project1b ((addAll t d).proc i)) =
      addAll (t.set i (dispatched .project1c (t.proc i))) (Function.update d i (d i + 1)) := by
  rw [addAll_proc, dispatched_addRuns, set_addAll]

theorem execute_lags {t u : Table} {i : Slot} {turn : Turn} (d : Slot → BitVec 32)
    (h : execute .project1c i turn t = .ok u) :
    ∃ d', execute .project1b i turn (addAll t d) = .ok (addAll u d') ∧ Lags i d d' := by
  have acts := carries_foldl (i := i) (f := act i) act_carries turn.acts
  obtain ⟨d', same, own, others⟩ := acts.lag
    (t.set i (dispatched .project1c (t.proc i))) (Function.update d i (d i + 1))
    (by simp [dispatched, swtchTo])
  refine ⟨d', ?_, by simpa using own, fun j apart => by simpa [apart] using others j⟩
  unfold execute at h ⊢
  rw [dispatch_addAll, same, leave_addAll, h]
  rfl

theorem visit_idle {s : State} {e : Slot × Turn} (v : Version) (idle : Idle s e) :
    visit v s e = .ok ⟨arrive s.table e.2, s.dispatched⟩ := by
  simp [visit, show ¬ ((arrive s.table e.2).proc e.1).state = .runnable from idle]

theorem visit_busy {s : State} {e : Slot × Turn} (v : Version) (busy : ¬ Idle s e) :
    visit v s e = (execute v e.1 e.2 (arrive s.table e.2)).map
      fun t => ⟨t, e.1 :: s.dispatched⟩ := by
  simp only [Idle, not_not] at busy
  unfold visit
  rw [if_pos busy]
  cases execute v e.1 e.2 (arrive s.table e.2) <;> rfl

theorem visit_lags {b c c' : State} {d : Slot → BitVec 32} {e : Slot × Turn}
    (lag : Lag b c d) (h : visit .project1c c e = .ok c') :
    ∃ b' d', visit .project1b b e = .ok b' ∧ Lag b' c' d' ∧
      (Idle c e → d' = d) ∧ (¬ Idle c e → Lags e.1 d d') := by
  have same : Idle b e ↔ Idle c e := by
    simp [Idle, lag.table, arrive_addAll, addRuns]
  by_cases idle : Idle c e
  · rw [visit_idle _ idle] at h
    cases h
    refine ⟨_, d, visit_idle _ (same.mpr idle), ⟨lag.dispatched, ?_⟩, fun _ => rfl,
      fun busy => absurd idle busy⟩
    simp [lag.table, arrive_addAll]
  · rw [visit_busy _ idle] at h
    obtain ⟨t, ran, rfl⟩ := Outcomes.map_eq_ok.mp h
    obtain ⟨d', lagged, lags⟩ := execute_lags d ran
    refine ⟨⟨addAll t d', e.1 :: b.dispatched⟩, d', ?_, ⟨?_, rfl⟩,
      fun h => absurd h idle, fun _ => lags⟩
    · rw [visit_busy _ (mt same.mp idle), lag.table, arrive_addAll, lagged]
      rfl
    · simp [lag.dispatched]

/-- For every table and every behaviour: the same dispatches, and tables that differ in
`runCount` at most. -/
theorem schedulers_simulate {b c c' : State} {d : Slot → BitVec 32} {es : List (Slot × Turn)}
    (lag : Lag b c d) (h : run (visit .project1c) c es = .ok c') :
    ∃ b' d', run (visit .project1b) b es = .ok b' ∧ Lag b' c' d' := by
  induction es generalizing b c d with
  | nil =>
    cases h
    exact ⟨b, d, rfl, lag⟩
  | cons e es ih =>
    obtain ⟨r, hr, rest⟩ := run_cons_ok.mp h
    obtain ⟨b', d', first, lag', -⟩ := visit_lags lag hr
    obtain ⟨b'', d'', later, lag''⟩ := ih lag' rest
    exact ⟨b'', d'', run_cons_ok.mpr ⟨b', first, later⟩, lag''⟩

/-- In a pass the slot dispatched last keeps its lag of one. -/
theorem pass_lags {b c c' : State} {d : Slot → BitVec 32} {es : List (Slot × Turn)}
    (once : (es.map Prod.fst).Nodup) (zero : ∀ e ∈ es, d e.1 = 0)
    (lag : Lag b c d) (h : run (visit .project1c) c es = .ok c') :
    ∃ b' d', run (visit .project1b) b es = .ok b' ∧ Lag b' c' d' ∧
      (Meets (visit .project1c) Idle c es → d' = d) ∧
      (¬ Meets (visit .project1c) Idle c es → ∃ j, d' j ≠ 0) := by
  induction es generalizing b c d with
  | nil =>
    cases h
    exact ⟨b, d, rfl, lag, fun _ => rfl, fun busy => absurd trivial busy⟩
  | cons e es ih =>
    obtain ⟨r, hr, rest⟩ := run_cons_ok.mp h
    obtain ⟨b', d', first, lag', kept, bumped⟩ := visit_lags lag hr
    rw [List.map_cons, List.nodup_cons] at once
    have later : ∀ f ∈ es, d' f.1 = 0 := by
      intro f hf
      have was := zero f (List.mem_cons_of_mem e hf)
      by_cases idle : Idle c e
      · rw [kept idle]
        exact was
      · have apart : f.1 ≠ e.1 := fun heq => once.1 (heq ▸ List.mem_map_of_mem hf)
        rcases (bumped idle).others f.1 apart with same | freed
        · exact same.trans was
        · exact freed
    obtain ⟨b'', d'', second, lag'', kept', bumped'⟩ := ih once.2 later lag' rest
    have ahead : Meets (visit .project1c) Idle c (e :: es) ↔
        Idle c e ∧ Meets (visit .project1c) Idle r es := by
      simp [Meets, hr]
    refine ⟨b'', d'', run_cons_ok.mpr ⟨b', first, second⟩, lag'', fun meets => ?_, fun busy => ?_⟩
    · obtain ⟨here, quiet⟩ := ahead.mp meets
      rw [kept' quiet, kept here]
    · by_cases quiet : Meets (visit .project1c) Idle r es
      · have here : ¬ Idle c e := fun idle => busy (ahead.mpr ⟨idle, quiet⟩)
        refine ⟨e.1, ?_⟩
        rw [kept' quiet, (bumped here).own, zero e List.mem_cons_self]
        decide
      · exact bumped' quiet

theorem visits_cons (b : Behaviour) (bs : List Behaviour) :
    visits (b :: bs) = visits [b] ++ visits bs := by
  simp [visits]

theorem pass_once (b : Behaviour) : ((visits [b]).map Prod.fst).Nodup := by
  have slots : (visits [b]).map Prod.fst = List.finRange nproc := by
    simp [visits, Function.comp_def]
  rw [slots]
  exact List.nodup_finRange nproc

theorem lag_zero (s : State) : Lag s s fun _ => 0 := by
  refine ⟨rfl, table_ext (fun j => ?_) rfl⟩
  simp [addRuns]

theorem Lag.eq_iff {b c : State} {d : Slot → BitVec 32} (lag : Lag b c d) :
    b = c ↔ ∀ j, d j = 0 := by
  constructor
  · rintro rfl j
    have same : ((addAll b.table d).proc j).runCount = (b.table.proc j).runCount := by
      rw [← lag.table]
    simpa [addRuns] using same
  · intro zero
    obtain rfl : d = fun _ => 0 := funext zero
    have same := lag.table.trans (lag_zero c).table.symm
    have dispatched := lag.dispatched
    cases b
    cases c
    cases same
    cases dispatched
    rfl

/-- The schedulers agree after a pass exactly when the pass dispatches nothing. -/
theorem pass_agrees_iff {s c : State} (b : Behaviour)
    (h : run (visit .project1c) s (visits [b]) = .ok c) :
    run (visit .project1b) s (visits [b]) = .ok c ↔
      Meets (visit .project1c) Idle s (visits [b]) := by
  obtain ⟨b', d', ran, lag, kept, bumped⟩ :=
    pass_lags (pass_once b) (fun _ _ => rfl) (lag_zero s) h
  rw [ran]
  constructor
  · intro same
    by_contra busy
    obtain ⟨j, lagging⟩ := bumped busy
    exact lagging (lag.eq_iff.mp (Except.ok.inj same) j)
  · intro idle
    have zero : ∀ j, d' j = 0 := fun j => by rw [kept idle]
    rw [lag.eq_iff.mpr zero]

/-- After every pass both schedulers have dispatched the same processes and every field of
every process is the same, if and only if nothing is dispatched. -/
theorem versions_agree_iff_idle (t : Table) (bs : List Behaviour) (s : State)
    (complete : run (visit .project1c) (start t) (visits bs) = .ok s) :
    (∀ n ≤ bs.length, run (visit .project1b) (start t) (visits (bs.take n)) =
      run (visit .project1c) (start t) (visits (bs.take n))) ↔
      Meets (visit .project1c) Idle (start t) (visits bs) := by
  generalize start t = r at complete ⊢
  induction bs generalizing r with
  | nil => simp [visits, Meets]
  | cons b bs ih =>
    rw [visits_cons] at complete ⊢
    obtain ⟨q, first, later⟩ := run_append_ok.mp complete
    have pass := pass_agrees_iff b first
    rw [meets_append, ← pass]
    have rest := ih q later
    constructor
    · intro agree
      have now := agree 1 (by simp)
      simp only [List.take_succ_cons, List.take_zero, first] at now
      refine ⟨now, fun q' hq' => ?_⟩
      obtain rfl : q = q' := Except.ok.inj (first.symm.trans hq')
      refine rest.mp fun n hn => ?_
      have after := agree (n + 1) (by simpa using hn)
      rwa [List.take_succ_cons, visits_cons, run_append_of_ok first, run_append_of_ok now] at after
    · rintro ⟨now, quiet⟩ n hn
      cases n with
      | zero => rfl
      | succ n =>
        have after := rest.mpr (quiet q first) n (by simpa using hn)
        rwa [List.take_succ_cons, visits_cons, run_append_of_ok first, run_append_of_ok now]

/-- Every process makes a system call and is then preempted in user mode. -/
def busy : Behaviour := fun _ => ⟨[], [.ecall], .usertimer⟩

/-- Before each turn a disk interrupt wakes whoever waits for the disk. -/
def quiet : Behaviour := fun _ => ⟨[.other 0], [], .usertimer⟩

/-- The first process waits for a clock tick. -/
def asleep : Table := sleep boot.table initproc .ticks

/-- With the first process runnable the schedulers differ; while it sleeps through both
passes they agree. -/
theorem versions_agree_iff_idle_first :
    (∃ s, run (visit .project1c) (start boot.table) (visits [busy, busy]) = .ok s ∧
      s.dispatched = [0, 0] ∧
      ¬ ∀ n ≤ 2, run (visit .project1b) (start boot.table) (visits ([busy, busy].take n)) =
        run (visit .project1c) (start boot.table) (visits ([busy, busy].take n))) ∧
    ∀ n ≤ 2, run (visit .project1b) (start asleep) (visits ([quiet, quiet].take n)) =
      run (visit .project1c) (start asleep) (visits ([quiet, quiet].take n)) := by
  have awake : Yields (run (visit .project1c) (start boot.table) (visits [busy, busy]))
      fun s => s.dispatched = [0, 0] := by decide +kernel
  have through : Yields (run (visit .project1c) (start asleep) (visits [quiet, quiet]))
      fun _ => True := by decide +kernel
  obtain ⟨s, ran, switched⟩ := awake
  obtain ⟨r, still, -⟩ := through
  refine ⟨⟨s, ran, switched, fun agree => ?_⟩, ?_⟩
  · have idle := (versions_agree_iff_idle boot.table [busy, busy] s ran).mp agree
    exact absurd idle (by decide +kernel)
  · exact (versions_agree_iff_idle asleep [quiet, quiet] r still).mpr (by decide +kernel)

/-- One pass over the table with only the first process: the same dispatch, but only the
scheduler of `project1.b` counts it. -/
theorem run_count_dropped :
    (Yields (run (visit .project1b) (start boot.table) (visits [busy])) fun s =>
      s.dispatched = [0] ∧ (s.table.proc 0).runCount = 1) ∧
    Yields (run (visit .project1c) (start boot.table) (visits [busy])) fun s =>
      s.dispatched = [0] ∧ (s.table.proc 0).runCount = 0 := by
  decide +kernel

end SchedulerVersions
