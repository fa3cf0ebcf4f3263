import Xv6.LockDiscipline

/-!
# No wakeup is lost

While a process is asleep in a call of `sleep`, every wakeup of its channel that
started after the call released its lock has not come to its slot yet: the sleeper
held its own lock from before the release until it was asleep, and the scheduler
kept that lock across the switch. So such a wakeup cannot have finished.
-/

namespace LostWakeups

open EventRuns LockDiscipline ProcTable SleepWakeup

variable {n : Nat} {CPU Lk Chan : Type} [DecidableEq Chan]
variable {i j w : Fin n} {chan : Chan} {history : List (Mark n Chan)} {m : Mark n Chan}

/-- The marks since process `i` last released the lock in a call of `sleep`, the latest
first. -/
def since (i : Fin n) (history : List (Mark n Chan)) : List (Mark n Chan) :=
  history.takeWhile fun m => m ≠ .released i

/-- Since then a wakeup of the channel by another process has started and finished. -/
def Woken (i : Fin n) (chan : Chan) (history : List (Mark n Chan)) : Prop :=
  ∃ w, w ≠ i ∧ ∃ later earlier,
    since i history = later ++ .finished w chan :: earlier ∧ .started w chan ∈ earlier

theorem since_released (i : Fin n) (history : List (Mark n Chan)) :
    since i (.released i :: history) = [] := by
  simp [since]

theorem since_cons (other : m ≠ .released i) :
    since i (m :: history) = m :: since i history := by
  simp [since, other]

theorem not_woken_released : ¬ Woken i chan (.released i :: history) := by
  rintro ⟨w, -, later, earlier, split_, -⟩
  simp [since_released] at split_

theorem woken_cons (other : m ≠ .released i) (h : Woken i chan (m :: history)) :
    Woken i chan history ∨
      ∃ w, w ≠ i ∧ m = .finished w chan ∧ .started w chan ∈ since i history := by
  obtain ⟨w, apart, later, earlier, split_, started⟩ := h
  rw [since_cons other] at split_
  cases later with
  | nil =>
    obtain ⟨rfl, rfl⟩ := List.cons.inj split_
    exact Or.inr ⟨w, apart, rfl, started⟩
  | cons x later =>
    obtain ⟨-, rest⟩ := List.cons.inj split_
    exact Or.inl ⟨w, apart, later, earlier, rest, started⟩

/-- A wakeup of the channel that has not tested slot `i`. -/
def Scanning (pc : Pc n Lk Chan) (chan : Chan) (i : Fin n) : Prop :=
  match pc with
  | .wakeup ch _ p => ch = chan ∧ p ≤ i.val
  | .wakeupAt ch _ p tested => ch = chan ∧ (p.val < i.val ∨ p = i ∧ tested = false)
  | _ => False

/-- The marks that a statement leaves. -/
def marks : Op n Lk Chan → List (Mark n Chan)
  | .release _ history => history
  | .mark m => [m]
  | _ => []

variable {pids : Fin n → Int} {pc pc' : Pc n Lk Chan} {a : Choice Lk Chan} {op : Op n Lk Chan}

omit [DecidableEq Chan] in
theorem code_scanning (scanning : Scanning pc chan j) (other : j ≠ i)
    (h : code pids i pc a = some (op, pc')) : Scanning pc' chan j ∨ op = .wake j chan := by
  cases code_statement h with
  | wakeupSkips ch lk own =>
    obtain ⟨rfl, before⟩ := scanning
    have apart : j.val ≠ i.val := fun same => other (Fin.ext same)
    exact Or.inl ⟨rfl, by omega⟩
  | wakeupLocks ch lk inside =>
    obtain ⟨rfl, before⟩ := scanning
    refine Or.inl ⟨rfl, ?_⟩
    rcases Nat.lt_or_eq_of_le before with less | same
    · exact Or.inl less
    · exact Or.inr ⟨Fin.ext same, rfl⟩
  | wakeupTests ch lk p =>
    obtain ⟨rfl, less | ⟨rfl, -⟩⟩ := scanning
    · exact Or.inl ⟨rfl, Or.inl less⟩
    · exact Or.inr rfl
  | wakeupUnlocks ch lk p =>
    obtain ⟨rfl, less | ⟨-, untested⟩⟩ := scanning
    · exact Or.inl ⟨rfl, less⟩
    · simp at untested
  | wakeupEnds ch lk past =>
    obtain ⟨-, before⟩ := scanning
    omega
  | _ => exact False.elim scanning

/-- What a statement records, by the places it leads from and to. -/
inductive Recorded (i : Fin n) : Op n Lk Chan → Pc n Lk Chan → Pc n Lk Chan → Prop
  | nothing {op : Op n Lk Chan} {pc pc' : Pc n Lk Chan} (none : marks op = [])
      (place : ∀ ch lk, pc' ≠ .sleep ch lk .store) : Recorded i op pc pc'
  | released (ch : Chan) (lk : Lk) : Recorded i (.release (.lk lk) [.released i])
      (.sleep ch lk .releaseLk) (.sleep ch lk .store)
  | started (ch : Chan) (lk : Lk) :
      Recorded i (.mark (.started i ch)) (.locked lk) (.wakeup ch lk 0)
  | finished (ch : Chan) (lk : Lk) (p : Nat) (past : n ≤ p) :
      Recorded i (.mark (.finished i ch)) (.wakeup ch lk p) (.locked lk)

omit [DecidableEq Chan] in
theorem code_recorded (h : code pids i pc a = some (op, pc')) : Recorded i op pc pc' := by
  cases code_statement h with
  | @sleep _ _ at_ _ _ code =>
    cases at_ <;> obtain ⟨rfl, rfl⟩ := Prod.mk.inj code
    all_goals first | exact .released _ _ | exact .nothing rfl (by simp)
  | @exit _ at_ _ _ code =>
    cases at_ <;> obtain ⟨rfl, rfl⟩ := Prod.mk.inj code
    all_goals exact .nothing rfl (by simp)
  | wakeupStarts ch lk => exact .started ch lk
  | wakeupEnds ch lk past => exact .finished ch lk _ past
  | _ => exact .nothing rfl (by simp)

omit [DecidableEq Chan] in
/-- The places of `sleep` after the release of `lk`, by the statement that leads there. -/
theorem code_into_sleep {lk : Lk} {at_ : SleepAt}
    (h : code pids i pc a = some (op, .sleep chan lk at_)) :
    (at_ = .sched → pc = .sleep chan lk .store) ∧ (at_ = .tidy → pc = .sleep chan lk .sched) := by
  cases code_statement h with
  | callSleep => simp
  | @sleep _ _ at' _ _ code =>
    cases at' <;> simp only [sleepCode, Prod.mk.injEq, reduceCtorEq, and_false] at code
    all_goals
      obtain ⟨-, place⟩ := code
      cases place
      simp
  | @exit _ at' _ _ code =>
    cases at' <;> simp [exitCode] at code

variable {s u : Machine n CPU Lk Chan} {c : CPU} {t : Thread n Lk Chan}

/-- Process `i` has released `lk` in a call of `sleep` and is, or is about to be, asleep. -/
def Pending (s : Machine n CPU Lk Chan) (i : Fin n) (chan : Chan) : Prop :=
  ∃ lk, s.thread i = ⟨.sleep chan lk .store, none⟩ ∨
    s.state i = .sleeping ∧ ∃ at_, s.thread i = ⟨.sleep chan lk at_, none⟩

structure Watched (s : Machine n CPU Lk Chan) (i : Fin n) (chan : Chan) : Prop where
  scanning : ∀ w, w ≠ i → .started w chan ∈ since i s.history →
    Scanning (s.thread w).pc chan i
  unwoken : ¬ Woken i chan s.history

def Wakes (s : Machine n CPU Lk Chan) : Prop := ∀ i chan, Pending s i chan → Watched s i chan

omit [DecidableEq Chan] in
/-- A process that has released `lk` in a call of `sleep` and has not given up the CPU holds
its own lock. -/
theorem pending_locked {lk : Lk} (sound : Sound s)
    (thread : s.thread j = ⟨.sleep chan lk .store, none⟩) :
    ∃ d, s.cpu d = .running j ∧ .proc j ∈ heldOn s d := by
  have phase := sound.phase j
  rw [thread] at phase
  obtain ⟨⟨d, on⟩, -⟩ := phase
  refine ⟨d, on, ?_⟩
  rw [heldOn_running on, thread]
  simp [threadHolds, holds]

variable [DecidableEq CPU] [DecidableEq Lk]

theorem perform_history (h : perform s c i op = .ok u) :
    u.history = marks op ++ s.history ∧ u.thread = s.thread := by
  cases op with
  | acquire l =>
    obtain ⟨-, rfl⟩ := acquire_ok h
    exact ⟨rfl, rfl⟩
  | release l history =>
    obtain ⟨v, hv, hu⟩ := Outcomes.bind_eq_ok.mp h
    rw [← Outcomes.pure_eq_ok.mp hu, release_ok hv]
    exact ⟨rfl, rfl⟩
  | sched =>
    rw [sched_ok h]
    exact ⟨rfl, rfl⟩
  | store | clearChan | mark | skip =>
    cases h
    exact ⟨rfl, rfl⟩
  | wake p chan =>
    cases h
    split <;> exact ⟨rfl, rfl⟩
  | strike p pid =>
    cases h
    split
    · dsimp only
      split <;> exact ⟨rfl, rfl⟩
    · exact ⟨rfl, rfl⟩
  | panic => cases h

/-- A process falls asleep by its own store only. -/
theorem perform_sleeping (h : perform s c i op = .ok u) (asleep : u.state j = .sleeping) :
    s.state j = .sleeping ∨ j = i ∧ ∃ chan, op = .store .sleeping chan := by
  have roused {p : Fin n} (h : (rouse s p).state j = .sleeping) : s.state j = .sleeping := by
    by_cases this : j = p
    · simp [rouse, this] at h
    · simpa [rouse, this] using h
  cases op with
  | acquire l =>
    obtain ⟨-, rfl⟩ := acquire_ok h
    exact Or.inl asleep
  | release l history =>
    obtain ⟨v, hv, hu⟩ := Outcomes.bind_eq_ok.mp h
    rw [← Outcomes.pure_eq_ok.mp hu, release_ok hv] at asleep
    exact Or.inl asleep
  | sched =>
    rw [sched_ok h] at asleep
    exact Or.inl asleep
  | store st chan =>
    cases h
    by_cases own : j = i
    · subst own
      have stored : st = .sleeping := by simpa using asleep
      exact Or.inr ⟨rfl, chan, by rw [stored]⟩
    · exact Or.inl (by simpa [own] using asleep)
  | clearChan | mark | skip =>
    cases h
    exact Or.inl asleep
  | wake p chan =>
    cases h
    split at asleep
    · exact Or.inl (roused asleep)
    · exact Or.inl asleep
  | strike p pid =>
    cases h
    split at asleep
    · dsimp only at asleep
      split at asleep
      · exact Or.inl (roused asleep)
      · exact Or.inl asleep
    · exact Or.inl asleep
  | panic => cases h

theorem perform_wake (h : perform s c i (.wake j chan) = .ok u) (channel : s.chan j = some chan) :
    u.state j ≠ .sleeping := by
  cases h
  split
  · simp [rouse]
  · rename_i other
    intro asleep
    exact other ⟨asleep, channel⟩

omit [DecidableEq CPU] [DecidableEq Lk] in
theorem Watched.quiet (watched : Watched s j chan) (history : u.history = s.history)
    (scan : ∀ w, w ≠ j → Scanning (s.thread w).pc chan j → Scanning (u.thread w).pc chan j) :
    Watched u j chan := by
  constructor
  · intro w apart started
    rw [history] at started
    exact scan w apart (watched.scanning w apart started)
  · rw [history]
    exact watched.unwoken

omit [DecidableEq CPU] [DecidableEq Lk] in
theorem Watched.record (watched : Watched s j chan) (history : u.history = m :: s.history)
    (foreign : m ≠ .released j)
    (scan : ∀ w, w ≠ j → Scanning (s.thread w).pc chan j → Scanning (u.thread w).pc chan j)
    (starts : ∀ w, m = .started w chan → Scanning (u.thread w).pc chan j)
    (ends : ∀ w, m = .finished w chan → ¬ Scanning (s.thread w).pc chan j) :
    Watched u j chan := by
  constructor
  · intro w apart started
    rw [history, since_cons foreign, List.mem_cons] at started
    rcases started with now | earlier
    · exact starts w now.symm
    · exact scan w apart (watched.scanning w apart earlier)
  · rw [history]
    intro woken
    rcases woken_cons foreign woken with before | ⟨w, apart, now, started⟩
    · exact watched.unwoken before
    · exact ends w now (watched.scanning w apart started)

/-- A wakeup that tests the slot of a process that waits to be woken finds it asleep. -/
theorem not_missed (sound : Sound s) (on : s.cpu c = .running i) (next : Next s c i op t)
    (h : perform s c i op = .ok u) (other : j ≠ i)
    (pending : Pending (setThread u i t) j chan) : op ≠ .wake j chan := by
  rintro rfl
  obtain ⟨lk, waits⟩ := pending
  simp only [setThread, (perform_history h).2, Function.update_of_ne other] at waits
  have lock : .proc j ∈ heldOn s c := by
    rw [heldOn_running on]
    exact (sound.legal on next).locks.1
  rcases waits with thread | ⟨asleep, at_, thread⟩
  · obtain ⟨d, running, held⟩ := pending_locked sound thread
    obtain rfl := sound.ledger.exclusive lock held
    exact other (Control.running.inj (running.symm.trans on))
  · have was : s.state j = .sleeping := by
      rcases perform_sleeping h asleep with was | ⟨-, _, store⟩
      · exact was
      · simp at store
    obtain ⟨ch, _, _, same, channel, -⟩ := sound.asleep j was
    rw [thread] at same
    cases same
    exact perform_wake h channel asleep

/-- What another process does to a process that waits to be woken. -/
theorem watched_other (sound : Sound s) (on : s.cpu c = .running i) (next : Next s c i op t)
    (h : perform s c i op = .ok u) (other : j ≠ i) (watched : Watched s j chan)
    (pending : Pending (setThread u i t) j chan) : Watched (setThread u i t) j chan := by
  obtain ⟨marked, threads⟩ := perform_history h
  have missed := not_missed sound on next h other pending
  have scan (w : Fin n) (_ : w ≠ j) (scanning : Scanning (s.thread w).pc chan j) :
      Scanning ((setThread u i t).thread w).pc chan j := by
    by_cases actor : w = i
    · subst actor
      simp only [setThread, threads, Function.update_self]
      cases next with
      | yield | timer => exact scanning
      | code outside next => exact (code_scanning scanning other next).resolve_right missed
    · simpa [setThread, threads, actor] using scanning
  cases next with
  | @yield at_ inside =>
    have silent : marks (yieldCode i at_ : Op n Lk Chan) = [] := by cases at_ <;> rfl
    exact watched.quiet (by simp [setThread, marked, silent]) scan
  | timer => exact watched.quiet (by simp [setThread, marked, marks]) scan
  | @code a op pc outside next =>
    generalize before : (s.thread i).pc = pc₀ at next
    cases code_recorded next with
    | nothing silent => exact watched.quiet (by simp [setThread, marked, silent]) scan
    | released ch lk =>
      exact watched.record (by simp [setThread, marked, marks]; rfl) (by simpa using other.symm)
        scan (by simp) (by simp)
    | started ch lk =>
      refine watched.record (m := .started i ch) (by simp [setThread, marked, marks]) (by simp)
        scan (fun w now => ?_) (by simp)
      obtain ⟨rfl, rfl⟩ := Mark.started.inj now
      simp [setThread, Scanning]
    | finished ch lk p past =>
      refine watched.record (m := .finished i ch) (by simp [setThread, marked, marks]) (by simp)
        scan (by simp) (fun w now => ?_)
      obtain ⟨rfl, rfl⟩ := Mark.finished.inj now
      rw [before]
      rintro ⟨-, less⟩
      omega

/-- What a process that waits to be woken does itself. -/
theorem watched_self (sound : Sound s) (sound' : Sound (setThread u i t)) (wakes : Wakes s)
    (next : Next s c i op t) (h : perform s c i op = .ok u)
    (pending : Pending (setThread u i t) i chan) : Watched (setThread u i t) i chan := by
  obtain ⟨marked, threads⟩ := perform_history h
  have others (w : Fin n) (apart : w ≠ i) (scanning : Scanning (s.thread w).pc chan i) :
      Scanning ((setThread u i t).thread w).pc chan i := by
    simpa [setThread, threads, apart] using scanning
  have place : ∃ lk at_, t = ⟨.sleep chan lk at_, none⟩ ∧
      (at_ = .store ∨ at_ = .sched ∨ at_ = .tidy) := by
    obtain ⟨lk, thread | ⟨asleep, at_, thread⟩⟩ := pending
    · exact ⟨lk, .store, by simpa [setThread] using thread, Or.inl rfl⟩
    · obtain ⟨ch, lk', at', same, -, place⟩ := sound'.asleep i asleep
      rw [thread] at same
      cases same
      exact ⟨lk, at_, by simpa [setThread] using thread, Or.inr place⟩
  obtain ⟨lk, at_, thread, place⟩ := place
  have locked : holds i (.sleep chan lk at_ : Pc n Lk Chan) = [.proc i] := by
    rcases place with rfl | rfl | rfl <;> rfl
  cases next with
  | yield inside =>
    have free := sound.nested i (by simp [inside])
    rw [(Thread.mk.inj thread).1, locked] at free
    simp at free
  | timer => simp at thread
  | @code a op pc outside next =>
    obtain rfl : pc = .sleep chan lk at_ := (Thread.mk.inj thread).1
    have before {at' : SleepAt} (pc : (s.thread i).pc = .sleep chan lk at') :
        s.thread i = ⟨.sleep chan lk at', none⟩ := by
      rw [← pc, ← outside]
    have silent (later : at_ ≠ .store) : (setThread u i
        { s.thread i with pc := .sleep chan lk at_ }).history = s.history := by
      generalize (s.thread i).pc = pc₀ at next
      cases code_recorded next with
      | nothing silent => simp [setThread, marked, silent]
      | released => exact absurd rfl later
    rcases place with rfl | rfl | rfl
    · generalize (s.thread i).pc = pc₀ at next
      cases code_recorded next with
      | nothing _ place => exact absurd rfl (place chan lk)
      | released =>
        have history : u.history = .released i :: s.history := marked
        constructor
        · intro w apart started
          simp [setThread, history, since_released] at started
        · simpa [setThread, history] using not_woken_released
    · have was := before ((code_into_sleep next).1 rfl)
      exact (wakes i chan ⟨lk, Or.inl was⟩).quiet (silent (by simp)) others
    · have was := before ((code_into_sleep next).2 rfl)
      have phase := sound.phase i
      rw [was] at phase
      exact (wakes i chan ⟨lk, Or.inr ⟨phase.2, .sched, was⟩⟩).quiet (silent (by simp)) others

theorem process_wakes (sound : Sound s) (wakes : Wakes s) (on : s.cpu c = .running i)
    (next : Next s c i op t) (h : perform s c i op = .ok u) : Wakes (setThread u i t) := by
  have sound' := sound.perform on next (sound.legal on next) h
  intro j chan pending
  by_cases own : j = i
  · subst own
    exact watched_self sound sound' wakes next h pending
  · have threads := (perform_history h).2
    have before : Pending s j chan := by
      obtain ⟨lk, waits⟩ := pending
      simp only [setThread, threads, Function.update_of_ne own] at waits
      refine ⟨lk, waits.imp_right (And.imp_left fun asleep => ?_)⟩
      rcases perform_sleeping h asleep with was | ⟨same, -⟩
      · exact was
      · exact absurd same own
    exact watched_other sound on next h own (wakes j chan before) pending

omit [DecidableEq CPU] [DecidableEq Lk] in
/-- The schedulers put nobody to sleep and record nothing. -/
theorem Wakes.turn (wakes : Wakes s) (thread : u.thread = s.thread)
    (history : u.history = s.history)
    (asleep : ∀ j, u.state j = .sleeping → s.state j = .sleeping) : Wakes u := by
  intro j chan pending
  have before : Pending s j chan := by
    obtain ⟨lk, waits⟩ := pending
    rw [thread] at waits
    exact ⟨lk, waits.imp_right (And.imp_left (asleep j))⟩
  exact (wakes j chan before).quiet history fun w _ scanning => by rwa [thread]

theorem step_wakes {e : Event CPU Lk Chan} (sound : Sound s) (wakes : Wakes s)
    (h : step s e = .ok u) : Wakes u := by
  unfold step at h
  cases on : s.cpu e.cpu with
  | scan p =>
    rw [on] at h
    dsimp only at h
    split at h
    · obtain ⟨v, hv, hu⟩ := Outcomes.bind_eq_ok.mp h
      obtain ⟨-, rfl⟩ := acquire_ok hv
      rw [← Outcomes.pure_eq_ok.mp hu]
      exact wakes.turn rfl rfl fun _ asleep => asleep
    · cases h
      exact wakes.turn rfl rfl fun _ asleep => asleep
  | holding p =>
    rw [on] at h
    dsimp only at h
    split at h
    · cases h
      refine wakes.turn rfl rfl fun j asleep => ?_
      by_cases this : j = p
      · simp [this] at asleep
      · simpa [this] using asleep
    · obtain ⟨v, hv, hu⟩ := Outcomes.bind_eq_ok.mp h
      rw [← Outcomes.pure_eq_ok.mp hu, release_ok hv]
      exact wakes.turn rfl rfl fun _ asleep => asleep
  | returned p =>
    rw [on] at h
    obtain ⟨v, hv, hu⟩ := Outcomes.bind_eq_ok.mp h
    rw [← Outcomes.pure_eq_ok.mp hu, release_ok hv]
    exact wakes.turn rfl rfl fun _ asleep => asleep
  | running i =>
    rw [on] at h
    rcases process_cases s e.cpu i e.choice with off | ⟨op, t, next, same⟩
    · simp [off] at h
    · simp only [same] at h
      obtain ⟨v, ran, rfl⟩ := Outcomes.map_eq_ok.mp h
      exact process_wakes sound wakes on next ran

theorem run_sound {up : Fin n → Bool} {pid : Fin n → Int} {es : List (Event CPU Lk Chan)}
    (h : run step (boot up pid) es = .ok s) : Sound s ∧ Wakes s := by
  refine run_invariant_all (I := fun s => Sound s ∧ Wakes s) ?_ ⟨boot_sound up pid, ?_⟩ h
  · rintro r e v ⟨sound, wakes⟩ moves
    exact ⟨sound_step sound moves, step_wakes sound wakes moves⟩
  · intro i chan pending
    obtain ⟨lk, thread | ⟨-, at_, thread⟩⟩ := pending
    · simp [boot] at thread
    · simp [boot] at thread

/-- The places of `yield`, `sleep` and `exit` where `sched` is entered next. -/
def AtSched (t : Thread n Lk Chan) : Prop :=
  t.yield = some .sched ∨
    t.yield = none ∧ ((∃ chan lk, t.pc = .sleep chan lk .sched) ∨ ∃ lk, t.pc = .exit lk .sched)

omit [DecidableEq Chan] [DecidableEq CPU] [DecidableEq Lk] in
theorem AtSched.next (place : AtSched (s.thread i)) : ∃ t, Next s c i .sched t := by
  rcases place with inside | ⟨outside, ⟨chan, lk, pc⟩ | ⟨lk, pc⟩⟩
  · exact ⟨_, .yield inside⟩
  · exact ⟨_, .code (a := .next) outside (by rw [pc]; rfl)⟩
  · exact ⟨_, .code (a := .next) outside (by rw [pc]; rfl)⟩

/-- In every reachable state, for any number of processes and CPUs: whoever is asleep is in a
call of `sleep`, and no wakeup of its channel by another process has started and finished since
that call released its lock; whoever is about to enter `sched` holds its own spinlock and no
other, and is not `RUNNING`; and no next step panics. -/
theorem no_wakeup_lost (up : Fin n → Bool) (pid : Fin n → Int)
    (es : List (Event CPU Lk Chan)) (s : Machine n CPU Lk Chan)
    (h : run step (boot up pid) es = .ok s) :
    (∀ i, s.state i = .sleeping → ∃ chan lk at_, s.thread i = ⟨.sleep chan lk at_, none⟩ ∧
      ¬ Woken i chan s.history) ∧
    (∀ c i, s.cpu c = .running i → AtSched (s.thread i) →
      (∀ l, s.lock l = some c ↔ l = .proc i) ∧ s.noff c = 1 ∧ s.state i ≠ .running) ∧
    ∀ e, step s e ≠ .error .panic := by
  obtain ⟨sound, wakes⟩ := run_sound h
  refine ⟨fun i asleep => ?_, fun c i on place => ?_, fun e => step_panics sound⟩
  · obtain ⟨chan, lk, at_, thread, -, -⟩ := sound.asleep i asleep
    exact ⟨chan, lk, at_, thread, (wakes i chan ⟨lk, Or.inr ⟨asleep, at_, thread⟩⟩).unwoken⟩
  · obtain ⟨t, next⟩ := place.next (c := c)
    exact sound.sched_entered on next

/-- The first of two processes goes to sleep, and the second wakes its channel up. -/
def handOver : List (Event Bool Unit Unit) :=
  ([.next, .next, .next, .acquire (), .sleep (), .next, .next, .next, .next, .next,
    .next, .next, .next, .acquire (), .wakeup (), .next, .next, .next, .next, .next] :
    List (Choice Unit Unit)).map fun a => ⟨false, a⟩

theorem no_wakeup_lost_two : ∃ s : Machine 2 Bool Unit Unit,
    run step (boot (fun _ => true) fun i => i.val + 1) handOver = .ok s ∧
      s.history = [.finished 1 (), .started 1 (), .released 0] ∧ s.state 0 ≠ .sleeping := by
  have ran : Outcomes.Yields (run step (boot (fun _ => true) fun i => i.val + 1) handOver)
      fun s : Machine 2 Bool Unit Unit =>
        s.history = [.finished 1 (), .started 1 (), .released 0] := by decide +kernel
  obtain ⟨s, h, history⟩ := ran
  refine ⟨s, h, history, fun asleep => ?_⟩
  obtain ⟨chan, -, -, -, unwoken⟩ := (no_wakeup_lost _ _ handOver s h).1 0 asleep
  cases chan
  apply unwoken
  rw [history]
  exact ⟨1, by decide, [], [.started 1 ()], by decide, List.mem_singleton_self _⟩

end LostWakeups
