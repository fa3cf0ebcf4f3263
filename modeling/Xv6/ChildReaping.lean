import Xv6.ChildFamily

/-!
# What wait returns

An exit is recorded once, a zombie keeps its pid and status until its parent frees the
slot, and pids are not used twice. So each exit is returned by one call of `wait` at
most, and nobody sleeps in `wait` beside a zombie child.
-/

namespace ChildReaping

open ChildCalls ChildFamily EventRuns Function Outcomes

variable {n : Nat} {init : Fin n} {s t : State n} {p j : Fin n} {x : Proc n}

/-- The records agree with the table. -/
structure Logs (s : State n) : Prop where
  known : ∀ e ∈ s.exited, e.1 < s.nextpid
  exitedOnce : (s.exited.map Prod.fst).Nodup
  zombies : ∀ j, (s.proc j).state = .zombie → ((s.proc j).pid, (s.proc j).xstate) ∈ s.exited
  living : ∀ j, (s.proc j).state ≠ .unused → (s.proc j).state ≠ .zombie →
    (s.proc j).pid ∉ s.exited.map Prod.fst
  reapedOnce : (s.reaped.map fun r => r.2.1).Nodup
  reapedExited : ∀ r ∈ s.reaped, r.2 ∈ s.exited
  present : ∀ j, (s.proc j).state ≠ .unused → (s.proc j).pid ∉ s.reaped.map fun r => r.2.1

/-- A step with which no process exits and no zombie is freed. -/
structure Quiet (s t : State n) : Prop where
  exited : t.exited = s.exited
  reaped : t.reaped = s.reaped
  nextpid : s.nextpid ≤ t.nextpid
  stays : ∀ j, (s.proc j).state = .zombie → (t.proc j).state = .zombie ∧
    (t.proc j).pid = (s.proc j).pid ∧ (t.proc j).xstate = (s.proc j).xstate
  comes : ∀ j, (t.proc j).state ≠ .unused →
    ((s.proc j).state ≠ .unused ∧ (t.proc j).pid = (s.proc j).pid ∧
      ((t.proc j).state = .zombie → (s.proc j).state = .zombie)) ∨
    (t.proc j).state = .used ∧ (t.proc j).pid = s.nextpid

theorem Quiet.of_proc (proc : t.proc = s.proc) (next : t.nextpid = s.nextpid)
    (exited : t.exited = s.exited) (reaped : t.reaped = s.reaped) : Quiet s t where
  exited := exited
  reaped := reaped
  nextpid := Nat.le_of_eq next.symm
  stays := fun j zombie => by
    rw [proc]
    exact ⟨zombie, rfl, rfl⟩
  comes := fun j real => by
    rw [proc] at real ⊢
    exact .inl ⟨real, rfl, id⟩

/-- One slot changes, and is no zombie or the same one as before. -/
theorem Quiet.of_slot (proc : t.proc = update s.proc j x) (next : t.nextpid = s.nextpid)
    (exited : t.exited = s.exited) (reaped : t.reaped = s.reaped)
    (slot : x.state = (s.proc j).state ∧ x.pid = (s.proc j).pid ∧ x.xstate = (s.proc j).xstate ∨
      x.state ≠ .zombie ∧ (s.proc j).state ≠ .zombie ∧
        (x.state = .unused ∨ (s.proc j).state ≠ .unused ∧ x.pid = (s.proc j).pid)) : Quiet s t where
  exited := exited
  reaped := reaped
  nextpid := Nat.le_of_eq next.symm
  stays := by
    intro k zombie
    rw [proc]
    rcases eq_or_ne k j with rfl | other
    · rw [update_self]
      rcases slot with ⟨state, pid, xstate⟩ | ⟨-, no, -⟩
      · exact ⟨state.trans zombie, pid, xstate⟩
      · exact absurd zombie no
    · rw [update_of_ne other]
      exact ⟨zombie, rfl, rfl⟩
  comes := by
    intro k real
    rw [proc] at real ⊢
    rcases eq_or_ne k j with rfl | other
    · rw [update_self] at real ⊢
      rcases slot with ⟨state, pid, -⟩ | ⟨no, -, unused | ⟨was, pid⟩⟩
      · exact .inl ⟨fun unused => real (state.trans unused), pid, fun zombie => state ▸ zombie⟩
      · exact absurd unused real
      · exact .inl ⟨was, pid, fun zombie => absurd zombie no⟩
    · rw [update_of_ne other] at real ⊢
      exact .inl ⟨real, rfl, id⟩

/-- What a step does to zombies. -/
inductive Outcome (s t : State n) : Prop
  | quiet (same : Quiet s t)
  | died (p : Fin n) (status : Int) (running : (s.proc p).state = .running) (eq : t = die s p status)
  | reaped (p pp : Fin n) (parent : (s.proc pp).parent = some p)
    (zombie : (s.proc pp).state = .zombie) (eq : t = reap s p pp)

theorem quiet_alive (proc : t.proc = update s.proc j x) (next : t.nextpid = s.nextpid)
    (exited : t.exited = s.exited) (reaped : t.reaped = s.reaped) (before : alive (s.proc j).state)
    (after : alive x.state) (pid : x.pid = (s.proc j).pid) : Quiet s t :=
  .of_slot proc next exited reaped
    (.inr ⟨(alive_ne after).2.1, (alive_ne before).2.1, .inr ⟨(alive_ne before).1, pid⟩⟩)

theorem quiet_woken (chan : Chan n) (proc : t.proc = update s.proc j (woken (s.proc j) chan))
    (next : t.nextpid = s.nextpid) (exited : t.exited = s.exited) (reaped : t.reaped = s.reaped) :
    Quiet s t := by
  unfold woken at proc
  split at proc
  next hit => exact quiet_alive proc next exited reaped (by rw [hit.1]; rfl) rfl rfl
  next => exact .of_slot proc next exited reaped (.inl ⟨rfl, rfl, rfl⟩)

theorem quiet_hit (proc : t.proc = update s.proc j (hit (s.proc j)))
    (next : t.nextpid = s.nextpid) (exited : t.exited = s.exited) (reaped : t.reaped = s.reaped) :
    Quiet s t := by
  by_cases asleep : (s.proc j).state = .sleeping
  · refine quiet_alive proc next exited reaped (by rw [asleep]; rfl) ?_ rfl
    simp [hit, asleep, alive]
  · exact .of_slot proc next exited reaped (.inl ⟨if_neg asleep, rfl, rfl⟩)

theorem outcome_wakeup {chan : Chan n} {i : Nat} {next : Pc n} {done : State n}
    (last : Outcome s done) (h : wakeup s p chan i next done = .ok t) : Outcome s t := by
  rcases wakeup_ok h with ⟨j, -, ⟨-, rfl⟩ | ⟨-, rfl⟩⟩ | ⟨-, rfl⟩
  · exact .quiet (.of_proc rfl rfl rfl rfl)
  · exact .quiet (quiet_woken chan rfl rfl rfl rfl)
  · exact last

theorem outcome_scan {addr havekids ok : Bool} {i : Nat}
    (h : scan s p addr i havekids ok = .ok t) : Outcome s t := by
  unfold scan at h
  split at h
  next inside =>
    split at h
    next parent =>
      split at h
      next => cases h
      next =>
        split at h
        next zombie =>
          split at h
          next =>
            cases h
            exact .quiet (.of_proc rfl rfl rfl rfl)
          next =>
            cases h
            exact .reaped p _ parent zombie rfl
        next =>
          cases h
          exact .quiet (.of_proc rfl rfl rfl rfl)
    next =>
      cases h
      exact .quiet (.of_proc rfl rfl rfl rfl)
  next =>
    split at h
    next =>
      cases h
      exact .quiet (.of_proc rfl rfl rfl rfl)
    next =>
      cases h
      exact .quiet (.of_proc rfl rfl rfl rfl)

theorem quiet_found {np : Fin n} (unused : (s.proc np).state = .unused) :
    Quiet s (found s p np) where
  exited := rfl
  reaped := rfl
  nextpid := Nat.le_succ _
  stays := by
    intro k zombie
    have other : k ≠ np := by
      rintro rfl
      rw [unused] at zombie
      cases zombie
    simp [found, State.setProc, update_of_ne other, zombie]
  comes := by
    intro k real
    rcases eq_or_ne k np with rfl | other
    · exact .inr ⟨by simp [found, State.setProc], by simp [found, State.setProc]⟩
    · have same : (found s p np).proc k = s.proc k := update_of_ne other ..
      rw [same] at real ⊢
      exact .inl ⟨real, rfl, id⟩

theorem outcome_go {ok : Bool} (inv : Inv init s) (running : (s.proc p).state = .running)
    (h : go init s p ok = .ok t) : Outcome s t := by
  have living : alive (s.proc p).state = true := by rw [running]; rfl
  unfold go at h
  split at h
  next => cases h
  next => cases h
  next =>
    cases h
    exact .quiet (quiet_alive rfl rfl rfl rfl living living rfl)
  next =>
    rcases atSlot_ok h with ⟨j, -, -, rfl⟩ | ⟨-, rfl⟩
    · split
      next unused => exact .quiet (quiet_found unused)
      next => exact .quiet (.of_proc rfl rfl rfl rfl)
    · exact .quiet (.of_proc rfl rfl rfl rfl)
  next np place =>
    cases h
    have used := (inv.forks p np (by rw [place]; rfl)).1
    cases ok with
    | true => exact .quiet (.of_proc rfl rfl rfl rfl)
    | false =>
      exact .quiet (.of_slot (j := np) rfl rfl rfl rfl (.inr ⟨nofun, by rw [used]; nofun, .inl rfl⟩))
  next =>
    split at h
    next =>
      cases h
      exact .quiet (.of_slot rfl rfl rfl rfl (.inl ⟨rfl, rfl, rfl⟩))
    next => cases h
  next np pid place =>
    split at h
    next => cases h
    next =>
      cases h
      have used := (inv.forks p np (by rw [place]; rfl)).1
      exact .quiet (.of_slot (j := np) rfl rfl rfl rfl
        (.inr ⟨nofun, by rw [used]; nofun, .inr ⟨by rw [used]; nofun, rfl⟩⟩))
  next =>
    unfold acquire at h
    split at h
    next => cases h
    next =>
      cases h
      exact .quiet (.of_proc rfl rfl rfl rfl)
  next =>
    cases h
    unfold reparent
    split
    next =>
      split
      next => exact .quiet (.of_slot rfl rfl rfl rfl (.inl ⟨rfl, rfl, rfl⟩))
      next => exact .quiet (.of_proc rfl rfl rfl rfl)
    next => exact .quiet (.of_proc rfl rfl rfl rfl)
  next =>
    refine outcome_wakeup ?_ h
    exact .quiet (.of_proc rfl rfl rfl rfl)
  next =>
    split at h
    next => exact outcome_wakeup (.died p _ running rfl) h
    next => cases h
  next =>
    unfold acquire at h
    split at h
    next => cases h
    next =>
      cases h
      exact .quiet (.of_proc rfl rfl rfl rfl)
  next => exact outcome_scan h
  next =>
    split at h
    next => cases h
    next =>
      split at h
      next =>
        cases h
        exact .quiet (.of_proc rfl rfl rfl rfl)
      next =>
        cases h
        exact .quiet (.of_proc rfl rfl rfl rfl)
  next =>
    split at h
    next => cases h
    next =>
      cases h
      exact .quiet (quiet_alive (j := p) rfl rfl rfl rfl living rfl rfl)
  next =>
    cases h
    exact .quiet (quiet_alive rfl rfl rfl rfl living living rfl)
  next =>
    rcases atSlot_ok h with ⟨j, -, -, rfl⟩ | ⟨-, rfl⟩
    · split
      next => exact .quiet (quiet_hit rfl rfl rfl rfl)
      next => exact .quiet (.of_proc rfl rfl rfl rfl)
    · exact .quiet (.of_proc rfl rfl rfl rfl)

theorem outcome_switch {old new : ProcState} (before : alive old = true) (after : alive new = true)
    (h : switch s p old new = .ok t) : Outcome s t := by
  unfold switch at h
  split at h
  next ok =>
    cases h
    exact .quiet (quiet_alive rfl rfl rfl rfl (by rw [ok.1]; exact before) after rfl)
  next => cases h

theorem outcome_call {e : Event n} (running : (s.proc e.proc).state = .running)
    (h : call init s e = .ok t) : Outcome s t := by
  cases e with
  | fork p =>
    cases h
    exact .quiet (.of_proc rfl rfl rfl rfl)
  | exit p status =>
    simp only [call] at h
    split at h
    next => cases h
    next =>
      cases h
      exact .quiet (.of_proc rfl rfl rfl rfl)
  | wait p addr =>
    cases h
    exact .quiet (.of_proc rfl rfl rfl rfl)
  | kill p pid =>
    cases h
    exact .quiet (.of_proc rfl rfl rfl rfl)
  | block p =>
    cases h
    have running : (s.proc p).state = .running := running
    exact .quiet (quiet_alive (j := p) rfl rfl rfl rfl (by rw [running]; rfl) rfl rfl)
  | awake p => cases h
  | dispatch p => cases h
  | yield p => cases h
  | go p ok => cases h

theorem outcome_step {e : Event n} (inv : Inv init s) (h : step init s e = .ok t) :
    Outcome s t := by
  unfold step at h
  split at h
  next =>
    split at h
    next => exact outcome_switch rfl rfl h
    next => cases h
  next => exact outcome_switch rfl rfl h
  next =>
    split at h
    next => cases h
    next => exact outcome_switch rfl rfl h
  next =>
    split at h
    next running => exact outcome_go inv running h
    next => cases h
  next =>
    split at h
    next ok => exact outcome_call ok.1 h
    next => cases h

theorem logs_quiet (logs : Logs s) (same : Quiet s t) : Logs t where
  known := by
    rw [same.exited]
    exact fun e mem => Nat.lt_of_lt_of_le (logs.known e mem) same.nextpid
  exitedOnce := by
    rw [same.exited]
    exact logs.exitedOnce
  zombies := by
    intro j zombie
    rcases same.comes j (by rw [zombie]; nofun) with ⟨-, -, before⟩ | ⟨used, -⟩
    · obtain ⟨-, pid, xstate⟩ := same.stays j (before zombie)
      rw [same.exited, pid, xstate]
      exact logs.zombies j (before zombie)
    · rw [used] at zombie
      cases zombie
  living := by
    intro j real notZombie
    rw [same.exited]
    rcases same.comes j real with ⟨was, pid, -⟩ | ⟨-, pid⟩
    · rw [pid]
      exact logs.living j was fun zombie => notZombie (same.stays j zombie).1
    · rw [pid]
      intro mem
      obtain ⟨e, inLog, fst⟩ := List.mem_map.mp mem
      exact absurd (fst ▸ logs.known e inLog) (Nat.lt_irrefl _)
  reapedOnce := by
    rw [same.reaped]
    exact logs.reapedOnce
  reapedExited := by
    rw [same.reaped, same.exited]
    exact logs.reapedExited
  present := by
    intro j real
    rw [same.reaped]
    rcases same.comes j real with ⟨was, pid, -⟩ | ⟨-, pid⟩
    · rw [pid]
      exact logs.present j was
    · rw [pid]
      intro mem
      obtain ⟨r, inLog, fst⟩ := List.mem_map.mp mem
      have known := logs.known r.2 (logs.reapedExited r inLog)
      exact absurd (fst ▸ known) (Nat.lt_irrefl _)

theorem logs_die {status : Int} (logs : Logs s) (inv : Inv init s)
    (running : (s.proc p).state = .running) : Logs (die s p status) := by
  have real : (s.proc p).state ≠ .unused := by
    rw [running]
    nofun
  have fresh := logs.living p real (by rw [running]; nofun)
  have slot (k : Fin n) : (die s p status).proc k =
      if k = p then { s.proc p with xstate := status, state := .zombie } else s.proc k :=
    update_apply ..
  constructor
  case known =>
    intro e mem
    rcases List.mem_cons.mp mem with rfl | old
    · exact (inv.one_le_pid real).2
    · exact logs.known e old
  case exitedOnce => exact List.nodup_cons.mpr ⟨fresh, logs.exitedOnce⟩
  case zombies =>
    intro j zombie
    rw [slot] at zombie ⊢
    by_cases here : j = p
    · rw [if_pos here]
      exact List.mem_cons_self
    · rw [if_neg here] at zombie ⊢
      exact List.mem_cons_of_mem _ (logs.zombies j zombie)
  case living =>
    intro j real' notZombie mem
    rw [slot] at real' notZombie mem
    by_cases here : j = p
    · rw [if_pos here] at notZombie
      exact notZombie rfl
    · rw [if_neg here] at real' notZombie mem
      rcases List.mem_cons.mp mem with same | old
      · exact here (inv.distinct j p real' real same)
      · exact logs.living j real' notZombie old
  case reapedOnce => exact logs.reapedOnce
  case reapedExited => exact fun r mem => List.mem_cons_of_mem _ (logs.reapedExited r mem)
  case present =>
    intro j real'
    rw [slot] at real' ⊢
    by_cases here : j = p
    · rw [if_pos here]
      exact logs.present p real
    · rw [if_neg here] at real' ⊢
      exact logs.present j real'

theorem logs_reap {pp : Fin n} (logs : Logs s) (inv : Inv init s)
    (zombie : (s.proc pp).state = .zombie) : Logs (reap s p pp) := by
  have real : (s.proc pp).state ≠ .unused := by
    rw [zombie]
    nofun
  have slot (k : Fin n) : (reap s p pp).proc k =
      if k = pp then freed (s.proc pp) else s.proc k := update_apply ..
  have still {k : Fin n} (real : ((reap s p pp).proc k).state ≠ .unused) :
      k ≠ pp ∧ (reap s p pp).proc k = s.proc k := by
    rw [slot] at real ⊢
    by_cases here : k = pp
    · rw [if_pos here] at real
      exact absurd rfl real
    · exact ⟨here, if_neg here⟩
  constructor
  case known => exact logs.known
  case exitedOnce => exact logs.exitedOnce
  case zombies =>
    intro j zombie'
    obtain ⟨-, same⟩ := still (k := j) (by rw [zombie']; nofun)
    rw [same] at zombie' ⊢
    exact logs.zombies j zombie'
  case living =>
    intro j real' notZombie
    obtain ⟨-, same⟩ := still real'
    rw [same] at real' notZombie ⊢
    exact logs.living j real' notZombie
  case reapedOnce => exact List.nodup_cons.mpr ⟨logs.present pp real, logs.reapedOnce⟩
  case reapedExited =>
    intro r mem
    rcases List.mem_cons.mp mem with rfl | old
    · exact logs.zombies pp zombie
    · exact logs.reapedExited r old
  case present =>
    intro j real' mem
    obtain ⟨other, same⟩ := still real'
    rw [same] at real' mem
    rcases List.mem_cons.mp mem with here | old
    · exact other (inv.distinct j pp real' real here)
    · exact logs.present j real' old

theorem logs_step {e : Event n} (inv : Inv init s) (logs : Logs s) (h : step init s e = .ok t) :
    Logs t := by
  cases outcome_step inv h with
  | quiet same => exact logs_quiet logs same
  | died p status running eq =>
    subst eq
    exact logs_die logs inv running
  | reaped p pp parent zombie eq =>
    subst eq
    exact logs_reap logs inv zombie

theorem logs_boot (init : Fin n) : Logs (boot init) where
  known := nofun
  exitedOnce := .nil
  zombies := fun j zombie => by
    by_cases first : j = init <;> simp [boot, first] at zombie
  living := fun _ _ _ => nofun
  reapedOnce := .nil
  reapedExited := nofun
  present := fun _ _ => nofun

structure Reaping (init : Fin n) (s : State n) : Prop where
  /-- The records have each exit once, and each return of `wait` once and for an exit. -/
  exitedOnce : (s.exited.map Prod.fst).Nodup
  reapedOnce : (s.reaped.map fun r => r.2.1).Nodup
  reapedExited : ∀ r ∈ s.reaped, r.2 ∈ s.exited
  /-- A zombie has the status of its exit. -/
  zombies : ∀ j, (s.proc j).state = .zombie → ((s.proc j).pid, (s.proc j).xstate) ∈ s.exited
  /-- A zombie keeps its pid and status, until its parent returns them from `wait`. -/
  stays : ∀ e t j, step init s e = .ok t → (s.proc j).state = .zombie →
    ((t.proc j).state = .zombie ∧ (t.proc j).pid = (s.proc j).pid ∧
      (t.proc j).xstate = (s.proc j).xstate ∧ t.reaped = s.reaped) ∨
    ∃ p pp, (s.proc pp).parent = some p ∧ (s.proc pp).state = .zombie ∧ t = reap s p pp
  /-- Only such a return is recorded. -/
  byParent : ∀ e t, step init s e = .ok t → t.reaped ≠ s.reaped →
    ∃ p pp, (s.proc pp).parent = some p ∧ (s.proc pp).state = .zombie ∧ t = reap s p pp
  /-- `wait` whose `copyout` fails leaves the table as it is. -/
  failed : ∀ p i havekids t, s.pc p = .scanning true i havekids →
    step init s (.go p false) = .ok t → t.proc = s.proc ∧ t.reaped = s.reaped
  /-- Nobody sleeps in `wait` who has a zombie child. -/
  awake : s.waitLock = none → ∀ q j, Sleeps s q → (s.proc j).parent = some q →
    (s.proc j).state ≠ .zombie

theorem scan_failed {i : Nat} {havekids : Bool} (h : scan s p true i havekids false = .ok t) :
    t.proc = s.proc ∧ t.reaped = s.reaped := by
  unfold scan at h
  split at h
  next =>
    split at h
    next =>
      split at h
      next => cases h
      next =>
        split at h
        next =>
          simp only [and_self, if_true] at h
          cases h
          exact ⟨rfl, rfl⟩
        next =>
          cases h
          exact ⟨rfl, rfl⟩
    next =>
      cases h
      exact ⟨rfl, rfl⟩
  next =>
    split at h
    next =>
      cases h
      exact ⟨rfl, rfl⟩
    next =>
      cases h
      exact ⟨rfl, rfl⟩

theorem reaping_of_logs (inv : Inv init s) (logs : Logs s) : Reaping init s where
  exitedOnce := logs.exitedOnce
  reapedOnce := logs.reapedOnce
  reapedExited := logs.reapedExited
  zombies := logs.zombies
  stays := by
    intro e t j h zombie
    cases outcome_step inv h with
    | quiet same =>
      obtain ⟨state, pid, xstate⟩ := same.stays j zombie
      exact .inl ⟨state, pid, xstate, same.reaped⟩
    | died p status running eq =>
      have other : j ≠ p := by
        rintro rfl
        rw [running] at zombie
        cases zombie
      have same : t.proc j = s.proc j := by
        rw [eq]
        exact update_of_ne other ..
      rw [same]
      exact .inl ⟨zombie, rfl, rfl, by rw [eq]; rfl⟩
    | reaped p pp parent here eq => exact .inr ⟨p, pp, parent, here, eq⟩
  byParent := by
    intro e t h differ
    cases outcome_step inv h with
    | quiet same => exact absurd same.reaped differ
    | died p status running eq => exact absurd (by rw [eq]; rfl) differ
    | reaped p pp parent here eq => exact ⟨p, pp, parent, here, eq⟩
  failed := by
    intro p i havekids t place h
    simp only [step, go, place] at h
    split at h
    next => exact scan_failed h
    next => cases h
  awake := by
    intro free q j asleep parent zombie
    obtain ⟨-, p, woke⟩ := inv.sleepers q j asleep parent zombie
    have held := holds_waking woke
    rw [inv.free free p] at held
    cases held

/-- What `wait` returns, in every state that the processes reach. -/
theorem exits_reaped_once {es : List (Event n)} (h : run (step init) (boot init) es = .ok s) :
    Reaping init s := by
  have both : Inv init s ∧ Logs s := run_invariant_all
    (I := fun s => Inv init s ∧ Logs s)
    (fun _ _ _ both h => ⟨inv_step both.1 h, logs_step both.1 both.2 h⟩)
    ⟨inv_boot init, logs_boot init⟩ h
  exact reaping_of_logs both.1 both.2

/-- The first process has a child that exits, fails to copy its status and then waits again. -/
def retried (p q : Fin n) : List (Event n) :=
  .dispatch p :: forks p 1 ++ .dispatch q :: .exit q 7 :: List.replicate 7 (.go q true) ++
    .wait p true :: List.replicate 3 (.go p false) ++ .wait p true :: List.replicate 3 (.go p true)

theorem exits_reaped_once_retried :
    ∃ s, run (step 0) (boot 0) (retried (0 : Fin 2) 1) = .ok s ∧ s.reaped = [(1, 2, 7)] ∧
      (s.proc 1).state = .unused ∧ Reaping 0 s := by
  have ran : Yields (run (step 0) (boot 0) (retried (0 : Fin 2) 1)) fun s =>
      s.reaped = [(1, 2, 7)] ∧ (s.proc 1).state = .unused := by decide +kernel
  obtain ⟨s, h, reaped, unused⟩ := ran
  exact ⟨s, h, reaped, unused, exits_reaped_once h⟩

end ChildReaping
