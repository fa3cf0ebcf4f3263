import Xv6.NestedLocks
import Xv6.Lib.Updates

/-!
# What pop_off restores

`intena` belongs to a thread but lies in the CPU. A process finds its own there
whenever it runs with a `push_off` open: `sched` keeps it while other threads use the
CPU, and puts it into whichever CPU the process comes back on.
-/

namespace NestingInvariants

open EventRuns Function LockLedger NestedLocks Outcomes ProcTable

variable {n : Nat} {L C : Type} {s t : State n L C} {c d : C} {u : Cpu n L} {i p : Fin n}

/-- What the control of a CPU says about its nesting. -/
def Phase (lock : Lock n L → Option C) (c : C) (u : Cpu n L) : Prop :=
  match u.control with
  | .acquiring _ | .releasing _ => u.mid = .none ∧ u.noff = 1 ∧ u.opens = 1
  | .holding p | .returned p => u.mid = .none ∧ u.noff = 1 ∧ lock (.proc p) = some c
  | .scan _ | .running _ => u.mid = .none ∨ 0 < u.opens

structure CpuInv (s : State n L C) (c : C) (u : Cpu n L) : Prop where
  off : 0 < u.noff → u.sie = false
  phase : Phase s.lock c u
  owns : ∀ i, u.control = .running i → s.state i = .running ∨ s.lock (.proc i) = some c
  outside : ∀ i, u.control = .running i → u.noff = 0 → s.entered i = none
  inside : ∀ i, u.control = .running i → ∀ b, s.entered i = some b → u.intena = b

structure Inv (s : State n L C) : Prop where
  cpus : ∀ c, CpuInv s c (s.cpu c)
  balance : ∃ count held, Ledger s.lock count held ∧
    ∀ c, (s.cpu c).noff = count c + (s.cpu c).opens
  alone : ∀ c d i, (s.cpu c).control = .running i → (s.cpu d).control = .running i → c = d
  away : ∀ i, (∀ c, (s.cpu c).control ≠ .running i) →
    ∀ b, s.entered i = some b → s.thread i = .sched b

/-- A CPU that runs no process. -/
theorem CpuInv.scheduling (off : 0 < u.noff → u.sie = false) (phase : Phase s.lock c u)
    (left : ∀ i, u.control ≠ .running i) : CpuInv s c u :=
  ⟨off, phase, fun i same => (left i same).elim, fun i same => (left i same).elim,
    fun i same => (left i same).elim⟩

/-- What a step of another CPU leaves. -/
theorem CpuInv.frame (inv : CpuInv s d u) (locks : ∀ l, s.lock l = some d → t.lock l = some d)
    (own : ∀ i, u.control = .running i →
      (s.state i = .running → t.state i = .running ∨ t.lock (.proc i) = some d) ∧
      t.entered i = s.entered i) : CpuInv t d u := by
  refine ⟨inv.off, ?_, fun i runs => ?_, fun i runs => ?_, fun i runs => ?_⟩
  · have phase := inv.phase
    unfold Phase at phase ⊢
    cases here : u.control with
    | holding p | returned p =>
      rw [here] at phase
      exact ⟨phase.1, phase.2.1, locks _ phase.2.2⟩
    | _ =>
      rw [here] at phase
      exact phase
  · rcases inv.owns i runs with running | held
    · exact (own i runs).1 running
    · exact .inr (locks _ held)
  · rw [(own i runs).2]
    exact inv.outside i runs
  · rw [(own i runs).2]
    exact inv.inside i runs

theorem boot_inv (up : Fin n → Bool) : Inv (boot up : State n L C) := by
  refine ⟨fun c => ⟨?_, .inl rfl, nofun, nofun, nofun⟩, ⟨fun _ => 0, fun _ => [], empty, ?_⟩,
    nofun, nofun⟩
  · intro more
    exact absurd more (Nat.lt_irrefl 0)
  · intro c
    rfl

theorem Inv.opens_le (inv : Inv s) (c : C) : (s.cpu c).opens ≤ (s.cpu c).noff := by
  obtain ⟨count, held, ledger, sums⟩ := inv.balance
  have sum := sums c
  omega

theorem acts_cases (acts : u.acts) :
    u.mid = .none ∧ ((∃ p, u.control = .scan p) ∨ ∃ i, u.control = .running i) := by
  unfold Cpu.acts at acts
  split at acts
  · exact ⟨‹_›, .inl ⟨_, ‹_›⟩⟩
  · exact ⟨‹_›, .inr ⟨_, ‹_›⟩⟩
  · exact acts.elim

/-- The CPU executes code that may nest. -/
def Nests (u : Cpu n L) : Prop := (∃ p, u.control = .scan p) ∨ ∃ i, u.control = .running i

theorem phase_nests {lock : Lock n L → Option C} (nests : Nests u)
    (mid : u.mid = .none ∨ 0 < u.opens) : Phase lock c u := by
  unfold Phase
  rcases nests with ⟨p, here⟩ | ⟨p, here⟩ <;> rw [here] <;> exact mid

theorem enter_entered (s : State n L C) (u : Cpu n L) (j : Fin n) :
    (s.enter u).entered j =
      if u.control = .running j ∧ u.noff = 0 then some u.sie else s.entered j := by
  unfold State.enter
  cases here : u.control with
  | running i =>
    by_cases none_ : u.noff = 0
    · simp only [none_, if_true, Control.running.injEq, and_true, update_apply, eq_comm]
    · simp [none_]
  | _ => simp

theorem forget_entered (s : State n L C) (u : Cpu n L) (j : Fin n) :
    (s.forget u).entered j =
      if u.control = .running j ∧ u.noff = 0 then none else s.entered j := by
  unfold State.forget
  cases here : u.control with
  | running i =>
    by_cases none_ : u.noff = 0
    · simp only [none_, if_true, Control.running.injEq, and_true, update_apply, eq_comm]
    · simp [none_]
  | _ => simp

/-- `enter` and `forget` change what one process noted. -/
theorem enter_eq (s : State n L C) (u : Cpu n L) :
    s.enter u = { s with entered := (s.enter u).entered } := by
  unfold State.enter
  split
  · split <;> rfl
  · rfl

theorem forget_eq (s : State n L C) (u : Cpu n L) :
    s.forget u = { s with entered := (s.forget u).entered } := by
  unfold State.forget
  split
  · split <;> rfl
  · rfl

theorem pop_off_ok {u' : Cpu n L} (h : pop_off u = .ok u') :
    u.sie = false ∧ 0 < u.noff ∧ u' = { u with
      noff := u.noff - 1
      sie := if u.noff - 1 = 0 ∧ u.intena then true else u.sie
      opens := u.opens - 1 } := by
  unfold pop_off at h
  split at h
  · cases h
  · split at h
    · cases h
    · rename_i off some_
      refine ⟨Bool.eq_false_iff.mpr off, by omega, (Except.ok.inj h).symm⟩

/-- No CPU runs a process whose lock another thread holds, unless it is `RUNNING`. -/
theorem Inv.parked (inv : Inv s) (held : s.lock (.proc p) = some c)
    (mine : (s.cpu c).control ≠ .running p) (still : s.state p ≠ .running) (d : C) :
    (s.cpu d).control ≠ .running p := by
  intro there
  rcases (inv.cpus d).owns p there with running | theirs
  · exact still running
  · obtain rfl : d = c := Option.some.inj (theirs.symm.trans held)
    exact mine there

theorem Inv.setState (inv : Inv s) {st : ProcState}
    (guarded : ∀ d, (s.cpu d).control = .running p → s.lock (.proc p) = some d) :
    Inv (s.setState p st) := by
  refine ⟨fun d => (inv.cpus d).frame (fun _ mine => mine) fun j there => ⟨fun running => ?_, rfl⟩,
    inv.balance, inv.alone, inv.away⟩
  rcases eq_or_ne j p with rfl | other
  · exact .inr (guarded d there)
  · exact .inl ((update_of_ne other _ _).trans running)

theorem guards_parked (inv : Inv s) (guards : Guards s c p) (still : s.state p ≠ .running) (d : C) :
    (s.cpu d).control ≠ .running p := by
  refine inv.parked guards.1 (fun here => ?_) still d
  have other := guards.2
  rw [here] at other
  exact other rfl

/-- A CPU in the middle of `acquire` or `release` has a `push_off` open. -/
theorem Inv.amid (inv : Inv s) (amid : (s.cpu c).mid ≠ .none) :
    Nests (s.cpu c) ∧ 0 < (s.cpu c).opens := by
  have phase := (inv.cpus c).phase
  unfold Phase at phase
  cases here : (s.cpu c).control with
  | scan p =>
    rw [here] at phase
    exact ⟨.inl ⟨p, here⟩, phase.resolve_left amid⟩
  | running i =>
    rw [here] at phase
    exact ⟨.inr ⟨i, here⟩, phase.resolve_left amid⟩
  | _ =>
    rw [here] at phase
    exact (amid phase.1).elim

theorem inv_create (inv : Inv s) (parked : ∀ d, (s.cpu d).control ≠ .running p) :
    Inv { s.setState p .runnable with
      thread := update s.thread p .forkret, entered := update s.entered p none } := by
  have fresh : Inv (s.setState p .runnable) :=
    inv.setState fun d there => (parked d there).elim
  refine ⟨fun d => (fresh.cpus d).frame (fun _ mine => mine) fun j there => ⟨.inl, ?_⟩,
    fresh.balance, fresh.alone, fun j gone b noted => ?_⟩
  · refine update_of_ne ?_ _ _
    rintro rfl
    exact parked d there
  · change update s.entered p none j = some b at noted
    rcases eq_or_ne j p with rfl | other
    · rw [update_self] at noted
      cases noted
    · rw [update_of_ne other] at noted
      exact (update_of_ne other _ _).trans (inv.away j gone b noted)

variable [DecidableEq C]

/-- `noff` and the open calls go up or down together. -/
theorem Inv.balance_same (inv : Inv s) {u : Cpu n L}
    (both : u.noff + (s.cpu c).opens = (s.cpu c).noff + u.opens) :
    ∃ count held, Ledger s.lock count held ∧
      ∀ d, (update s.cpu c u d).noff = count d + (update s.cpu c u d).opens := by
  obtain ⟨count, held, ledger, sums⟩ := inv.balance
  refine ⟨count, held, ledger, fun d => ?_⟩
  rcases eq_or_ne d c with rfl | other
  · have sum := sums d
    simp only [update_self]
    omega
  · simp only [update_of_ne other]
    exact sums d

/-- A CPU that runs no process afterwards. -/
theorem Inv.alone_left (inv : Inv s) {u : Cpu n L} (left : ∀ i, u.control ≠ .running i) :
    ∀ d e i, (update s.cpu c u d).control = .running i →
      (update s.cpu c u e).control = .running i → d = e := by
  intro d e i first second
  rcases eq_or_ne d c with rfl | apart
  · rw [update_self] at first
    exact absurd first (left i)
  · rcases eq_or_ne e c with rfl | apart'
    · rw [update_self] at second
      exact absurd second (left i)
    · rw [update_of_ne apart] at first
      rw [update_of_ne apart'] at second
      exact inv.alone d e i first second

/-- The processes and locks that another CPU sees are as before. -/
theorem Inv.others (inv : Inv s) (locks : ∀ d ≠ c, ∀ l, s.lock l = some d → t.lock l = some d)
    (own : ∀ d ≠ c, ∀ i, (s.cpu d).control = .running i →
      (s.state i = .running → t.state i = .running ∨ t.lock (.proc i) = some d) ∧
      t.entered i = s.entered i)
    {u : Cpu n L} (here : CpuInv t c u) (cpus : t.cpu = update s.cpu c u) :
    ∀ d, CpuInv t d (t.cpu d) := by
  intro d
  rw [cpus]
  rcases eq_or_ne d c with rfl | other
  · rw [update_self]
    exact here
  · rw [update_of_ne other]
    exact (inv.cpus d).frame (locks d other) (own d other)

theorem running_update {u : Cpu n L}
    (same : ∀ i, u.control = .running i ↔ (s.cpu c).control = .running i) (d : C) (i : Fin n) :
    (update s.cpu c u d).control = .running i ↔ (s.cpu d).control = .running i := by
  rcases eq_or_ne d c with rfl | other
  · rw [update_self]
    exact same i
  · rw [update_of_ne other]

/-- A step that changes nothing but the CPU, which keeps running what it runs. -/
theorem Inv.setCpu (inv : Inv s) {u : Cpu n L} (here : CpuInv s c u)
    (both : u.noff + (s.cpu c).opens = (s.cpu c).noff + u.opens)
    (same : ∀ i, u.control = .running i ↔ (s.cpu c).control = .running i) :
    Inv (s.setCpu c u) := by
  have controls := running_update same
  refine ⟨inv.others (fun _ _ _ mine => mine) (fun _ _ _ _ => ⟨.inl, rfl⟩) ⟨here.off, here.phase,
    here.owns, here.outside, here.inside⟩ rfl, inv.balance_same both, ?_, ?_⟩
  · intro d e i first second
    exact inv.alone d e i ((controls d i).mp first) ((controls e i).mp second)
  · intro i off
    exact inv.away i fun d runs => off d ((controls d i).mpr runs)

/-- A step that changes the nesting of a thread and what its process noted. -/
theorem Inv.nest (inv : Inv s) {u : Cpu n L} {entered : Fin n → Option Bool}
    (nests : Nests u) (same : u.control = (s.cpu c).control)
    (off : 0 < u.noff → u.sie = false) (mid : u.mid = .none ∨ 0 < u.opens)
    (both : u.noff + (s.cpu c).opens = (s.cpu c).noff + u.opens)
    (notes : ∀ i, u.control ≠ .running i → entered i = s.entered i)
    (outside : ∀ i, u.control = .running i → u.noff = 0 → entered i = none)
    (inside : ∀ i, u.control = .running i → ∀ b, entered i = some b → u.intena = b) :
    Inv { s.setCpu c u with entered := entered } := by
  have runs (i : Fin n) : u.control = .running i ↔ (s.cpu c).control = .running i := by rw [same]
  have controls := running_update runs
  refine ⟨inv.others (fun _ _ _ mine => mine) (fun d other i there => ⟨.inl, ?_⟩)
    ⟨off, phase_nests nests mid, ?_, outside, inside⟩ rfl, inv.balance_same both, ?_, ?_⟩
  · refine notes i fun here => ?_
    exact other (inv.alone d c i there ((runs i).mp here))
  · intro i here
    exact (inv.cpus c).owns i ((runs i).mp here)
  · intro d e i first second
    exact inv.alone d e i ((controls d i).mp first) ((controls e i).mp second)
  · intro i off_
    have gone (d : C) : (s.cpu d).control ≠ .running i :=
      fun there => off_ d ((controls d i).mpr there)
    change ∀ b, entered i = some b → _
    rw [notes i fun here => gone c ((runs i).mp here)]
    exact inv.away i gone

/-- The outermost `pop_off` leaves interrupts as the outermost `push_off` found them. -/
theorem popped_restores (inv : Inv s) (h : popped s c = .ok t)
    (runs : (s.cpu c).control = .running i)
    (last : (t.cpu c).noff = 0) {b : Bool} (noted : s.entered i = some b) :
    (t.cpu c).sie = b := by
  obtain ⟨u, popped, h⟩ := bind_eq_ok.mp h
  obtain rfl := Except.ok.inj h
  obtain ⟨off, more, rfl⟩ := pop_off_ok popped
  have kept := (inv.cpus c).inside i runs b noted
  simp only [State.setCpu, update_self] at last ⊢
  simp only [last, true_and, off, kept]
  cases b <;> rfl

theorem sched_ok (h : sched s c i = .ok t) :
    s.lock (.proc i) = some c ∧ (s.cpu c).noff = 1 ∧ (s.cpu c).sie = false ∧
      t = { s.setCpu c { s.cpu c with control := .returned i } with
        thread := update s.thread i (.sched (s.cpu c).intena) } := by
  simp only [sched] at h
  split at h
  · cases h
  · split at h
    · cases h
    · split at h
      · cases h
      · split at h
        · cases h
        · rename_i mine one _ off
          exact ⟨not_not.mp mine, not_not.mp one, Bool.eq_false_iff.mpr off,
            (Except.ok.inj h).symm⟩

theorem inv_pushed (inv : Inv s) (mid : Mid n L) (nests : Nests (s.cpu c)) :
    Inv (pushed s c mid) := by
  rw [pushed, enter_eq]
  refine inv.nest (u := { push_off (s.cpu c) with mid := mid }) nests rfl (fun _ => rfl)
    (.inr (Nat.succ_pos _)) ?_ (fun i other => ?_) (fun i _ none_ => ?_) fun i here b noted => ?_
  · simp only [push_off]
    omega
  · rw [enter_entered, if_neg fun h => other h.1]
  · exact absurd none_ (Nat.succ_ne_zero _)
  · rw [enter_entered] at noted
    by_cases none_ : (s.cpu c).noff = 0
    · rw [if_pos ⟨here, none_⟩] at noted
      simp only [push_off, if_pos none_]
      exact Option.some.inj noted
    · rw [if_neg fun h => none_ h.2] at noted
      simp only [push_off, if_neg none_]
      exact (inv.cpus c).inside i here b noted

theorem inv_popped (inv : Inv s) (nests : Nests (s.cpu c)) (some_ : 0 < (s.cpu c).opens)
    (h : popped s c = .ok t) : Inv t := by
  obtain ⟨u, popped, h⟩ := bind_eq_ok.mp h
  obtain rfl := Except.ok.inj h
  obtain ⟨off, more, rfl⟩ := pop_off_ok popped
  rw [forget_eq]
  refine inv.nest nests rfl (fun left => ?_) (.inl rfl) ?_ (fun i other => ?_)
    (fun i here none_ => ?_) fun i here b noted => ?_
  · rw [if_neg fun h => (Nat.ne_of_gt left) h.1]
    exact off
  · simp only
    omega
  · rw [forget_entered, if_neg fun h => other h.1]
  · rw [forget_entered, if_pos ⟨here, none_⟩]
  · rw [forget_entered] at noted
    by_cases none_ : (s.cpu c).noff - 1 = 0
    · rw [if_pos ⟨here, none_⟩] at noted
      cases noted
    · rw [if_neg fun h => none_ h.2] at noted
      exact (inv.cpus c).inside i here b noted

/-- The process leaves with its `intena`. -/
theorem inv_sched (inv : Inv s) (runs : (s.cpu c).control = .running i)
    (idle : (s.cpu c).mid = .none) (h : sched s c i = .ok t) : Inv t := by
  obtain ⟨mine, one, off, rfl⟩ := sched_ok h
  have left (j : Fin n) : Control.returned i ≠ .running j := nofun
  refine ⟨inv.others (u := { s.cpu c with control := .returned i }) (fun _ _ _ mine => mine)
    (fun _ _ _ _ => ⟨.inl, rfl⟩)
    (.scheduling (fun _ => off) (And.intro idle ⟨one, mine⟩) left) rfl,
    inv.balance_same rfl, inv.alone_left left, ?_⟩
  intro j gone b noted
  rcases eq_or_ne j i with rfl | other
  · have kept := (inv.cpus c).inside j runs b noted
    rw [← kept]
    exact update_self ..
  · refine (update_of_ne other _ _).trans (inv.away j (fun d there => ?_) b noted)
    rcases eq_or_ne d c with rfl | apart
    · exact other (Control.running.inj (there.symm.trans runs))
    · refine gone d ?_
      change (update s.cpu c _ d).control = _
      rwa [update_of_ne apart]

/-- The process comes back with its `intena`, on whichever CPU. -/
theorem inv_dispatch (inv : Inv s) (here : (s.cpu c).control = .holding p)
    (ready : s.state p = .runnable) :
    Inv ((s.setState p .running).setCpu c { s.cpu c with
      control := .running p, intena := (s.thread p).resumed (s.cpu c).intena }) := by
  have phase := (inv.cpus c).phase
  rw [Phase, here] at phase
  obtain ⟨idle, one, held⟩ := phase
  have parked := inv.parked held (by rw [here]; exact nofun) (by rw [ready]; decide)
  refine ⟨inv.others (u := { s.cpu c with
      control := .running p, intena := (s.thread p).resumed (s.cpu c).intena })
    (fun _ _ _ mine => mine) (fun d _ j there => ⟨fun running => .inl ?_, rfl⟩)
    ⟨(inv.cpus c).off, phase_nests (.inr ⟨p, rfl⟩) (.inl idle), fun j same => ?_,
      fun j same none_ => ?_, fun j same b noted => ?_⟩ rfl, inv.balance_same rfl, ?_, ?_⟩
  · refine (update_of_ne ?_ _ _).trans running
    rintro rfl
    exact parked d there
  · obtain rfl := Control.running.inj same
    exact .inl (update_self ..)
  · exact absurd (one.symm.trans none_) (by decide)
  · obtain rfl := Control.running.inj same
    have kept : s.thread p = .sched b := inv.away p parked b noted
    simp only [kept]
    rfl
  · intro d e j first second
    change (update s.cpu c _ d).control = _ at first
    change (update s.cpu c _ e).control = _ at second
    rcases eq_or_ne d c with rfl | apart <;> rcases eq_or_ne e d with rfl | apart'
    · rfl
    · rw [update_self] at first
      rw [update_of_ne apart'] at second
      obtain rfl := Control.running.inj first
      exact (parked e second).elim
    · rfl
    · rw [update_of_ne apart] at first
      rcases eq_or_ne e c with rfl | away_
      · rw [update_self] at second
        obtain rfl := Control.running.inj second
        exact (parked d first).elim
      · rw [update_of_ne away_] at second
        exact inv.alone d e j first second
  · intro j gone
    refine inv.away j fun d there => gone d ?_
    change (update s.cpu c _ d).control = _
    rw [update_of_ne]
    · exact there
    · rintro rfl
      rw [here] at there
      cases there

/-- The outermost `push_off` of a process. -/
def Enters (s t : State n L C) (c : C) (i : Fin n) : Prop :=
  (s.cpu c).control = .running i ∧ (s.cpu c).noff = 0 ∧ (t.cpu c).noff ≠ 0

/-- Its outermost `pop_off` completes. -/
def Exits (s t : State n L C) (c : C) (i : Fin n) : Prop :=
  (s.cpu c).control = .running i ∧ (s.cpu c).noff ≠ 0 ∧ (t.cpu c).noff = 0

instance (s t : State n L C) (c : C) (i : Fin n) : Decidable (Enters s t c i) := by
  unfold Enters
  infer_instance

instance (s t : State n L C) (c : C) (i : Fin n) : Decidable (Exits s t c i) := by
  unfold Exits
  infer_instance

/-- What a step can do to the nesting of a CPU and to the notes. -/
inductive Effect (s t : State n L C) (c : C) : Action n L → Prop where
  | push (a : Action n L) (mid : Mid n L) (eq : t = pushed s c mid) : Effect s t c a
  | pop (a : Action n L) (h : popped s c = .ok t) : Effect s t c a
  | create (p : Fin n) (cpu : t.cpu = s.cpu) (notes : ∀ i ≠ p, t.entered i = s.entered i) :
    Effect s t c (.create p)
  | rest (a : Action n L) (notes : t.entered = s.entered) (others : ∀ d ≠ c, t.cpu d = s.cpu d)
    (noff : ∀ i, (s.cpu c).control = .running i → (t.cpu c).noff = (s.cpu c).noff) :
    Effect s t c a

theorem setCpu_noff (s : State n L C) (c : C) (u : Cpu n L) :
    ((s.setCpu c u).cpu c).noff = u.noff := by
  simp only [State.setCpu, update_self]

theorem setCpu_effect (s : State n L C) (c : C) (u : Cpu n L) (a : Action n L)
    (noff : u.noff = (s.cpu c).noff ∨ ∀ i, (s.cpu c).control ≠ .running i) :
    Effect s (s.setCpu c u) c a := by
  refine .rest a rfl (fun d other => update_of_ne other _ _) fun i here => ?_
  exact (setCpu_noff ..).trans (noff.resolve_right fun plain => plain i here)

theorem setState_effect (s : State n L C) (c : C) (p : Fin n) (st : ProcState) (a : Action n L) :
    Effect s (s.setState p st) c a :=
  .rest a rfl (fun _ _ => rfl) fun _ _ => rfl

theorem pushed_cpu (s : State n L C) (c : C) (mid : Mid n L) :
    (pushed s c mid).cpu = update s.cpu c { push_off (s.cpu c) with mid := mid } := by
  rw [pushed, enter_eq]
  rfl

theorem popped_others (h : popped s c = .ok t) (other : d ≠ c) : t.cpu d = s.cpu d := by
  obtain ⟨u, -, h⟩ := bind_eq_ok.mp h
  obtain rfl := Except.ok.inj h
  rw [forget_eq]
  exact update_of_ne other _ _

variable [DecidableEq L]

/-- A held lock takes the place of an open `push_off`. -/
theorem Inv.balance_take (inv : Inv s) {l : Lock n L} (free : s.lock l = none) {u : Cpu n L}
    (noff : u.noff = (s.cpu c).noff) (opens : u.opens + 1 = (s.cpu c).opens) :
    ∃ count held, Ledger (update s.lock l (some c)) count held ∧
      ∀ d, (update s.cpu c u d).noff = count d + (update s.cpu c u d).opens := by
  obtain ⟨count, held, ledger, sums⟩ := inv.balance
  refine ⟨_, _, ledger.acquire free (.refl _), fun d => ?_⟩
  rcases eq_or_ne d c with rfl | other
  · have sum := sums d
    simp only [update_self]
    omega
  · simp only [update_of_ne other]
    exact sums d

theorem Inv.balance_drop (inv : Inv s) {l : Lock n L} (mine : s.lock l = some c) {u : Cpu n L}
    (noff : u.noff = (s.cpu c).noff) (opens : u.opens = (s.cpu c).opens + 1) :
    ∃ count held, Ledger (update s.lock l none) count held ∧
      ∀ d, (update s.cpu c u d).noff = count d + (update s.cpu c u d).opens := by
  obtain ⟨count, held, ledger, sums⟩ := inv.balance
  have member := (ledger.owner l c).mp mine
  refine ⟨_, _, ledger.release (List.perm_cons_erase member), fun d => ?_⟩
  rcases eq_or_ne d c with rfl | other
  · have sum := sums d
    have some_ : 0 < count d := by
      rw [ledger.counts]
      exact List.length_pos_of_mem member
    simp only [update_self]
    omega
  · simp only [update_of_ne other]
    exact sums d

/-- A lock is taken. -/
theorem Inv.take (inv : Inv s) {l : Lock n L} (free : s.lock l = none) {u : Cpu n L}
    (here : CpuInv (s.setLock l (some c)) c u) (noff : u.noff = (s.cpu c).noff)
    (opens : u.opens + 1 = (s.cpu c).opens)
    (same : ∀ i, u.control = .running i ↔ (s.cpu c).control = .running i) :
    Inv ((s.setLock l (some c)).setCpu c u) := by
  have controls := running_update same
  refine ⟨inv.others (fun d _ k mine => ?_) (fun d _ i runs => ⟨.inl, rfl⟩)
    ⟨here.off, here.phase, here.owns, here.outside, here.inside⟩ rfl,
    inv.balance_take free noff opens, ?_, ?_⟩
  · refine (update_of_ne ?_ _ _).trans mine
    rintro rfl
    rw [free] at mine
    cases mine
  · intro d e i first second
    exact inv.alone d e i ((controls d i).mp first) ((controls e i).mp second)
  · intro i off
    exact inv.away i fun d runs => off d ((controls d i).mpr runs)

/-- A lock is given up. -/
theorem Inv.drop (inv : Inv s) {l : Lock n L} (mine : s.lock l = some c) {u : Cpu n L}
    (here : CpuInv (s.setLock l none) c u) (noff : u.noff = (s.cpu c).noff)
    (opens : u.opens = (s.cpu c).opens + 1)
    (same : ∀ i, u.control = .running i ↔ (s.cpu c).control = .running i) :
    Inv ((s.setLock l none).setCpu c u) := by
  have controls := running_update same
  refine ⟨inv.others (fun d other k theirs => ?_) (fun d _ i runs => ⟨.inl, rfl⟩)
    ⟨here.off, here.phase, here.owns, here.outside, here.inside⟩ rfl,
    inv.balance_drop mine noff opens, ?_, ?_⟩
  · refine (update_of_ne ?_ _ _).trans theirs
    rintro rfl
    rw [mine] at theirs
    exact other (Option.some.inj theirs).symm
  · intro d e i first second
    exact inv.alone d e i ((controls d i).mp first) ((controls e i).mp second)
  · intro i off
    exact inv.away i fun d runs => off d ((controls d i).mpr runs)

theorem take_ok {l : Lock n L} (h : NestedLocks.take s c l u = .ok t) : s.lock l = none ∧
    t = (s.setLock l (some c)).setCpu c { u with opens := u.opens - 1 } := by
  unfold NestedLocks.take at h
  split at h
  · cases h
  · rename_i free
    exact ⟨not_not.mp free, (Except.ok.inj h).symm⟩

theorem drop_ok {l : Lock n L} (h : NestedLocks.drop s c l u = .ok t) : s.lock l = some c ∧
    t = (s.setLock l none).setCpu c { u with opens := u.opens + 1 } := by
  unfold NestedLocks.drop at h
  split at h
  · cases h
  · rename_i mine
    exact ⟨not_not.mp mine, (Except.ok.inj h).symm⟩

/-- A lock that a thread takes or gives up in code of its own. -/
theorem inv_gained (inv : Inv s) {l : Lock n L} (nests : Nests (s.cpu c))
    (some_ : 0 < (s.cpu c).opens)
    (h : NestedLocks.take s c l { s.cpu c with mid := .none } = .ok t) : Inv t := by
  obtain ⟨free, rfl⟩ := take_ok h
  have old := inv.cpus c
  refine inv.take free ⟨old.off, phase_nests nests (.inl rfl), fun i runs => ?_, old.outside,
    old.inside⟩ rfl (Nat.sub_add_cancel some_) fun i => Iff.rfl
  refine (old.owns i runs).imp_right fun held => ?_
  refine (update_of_ne ?_ _ _).trans held
  rintro rfl
  rw [free] at held
  cases held

theorem inv_dropped (inv : Inv s) {l : Lock n L} (nests : Nests (s.cpu c))
    (stays : ∀ i, (s.cpu c).control = .running i → l = .proc i → s.state i = .running)
    (h : NestedLocks.drop s c l { s.cpu c with mid := .drops } = .ok t) : Inv t := by
  obtain ⟨mine, rfl⟩ := drop_ok h
  have old := inv.cpus c
  refine inv.drop mine ⟨old.off, phase_nests nests (.inr (Nat.succ_pos _)), fun i runs => ?_,
    old.outside, old.inside⟩ rfl rfl fun i => Iff.rfl
  by_cases own : l = .proc i
  · exact .inl (stays i runs own)
  · exact (old.owns i runs).imp_right fun held => (update_of_ne (Ne.symm own) _ _).trans held

/-- The scheduler gives up the lock of a slot. -/
theorem inv_releasing (inv : Inv s) (idle : (s.cpu c).mid = .none) (one : (s.cpu c).noff = 1)
    (mine : s.lock (.proc p) = some c) (plain : ∀ i, (s.cpu c).control ≠ .running i)
    (h : NestedLocks.drop s c (.proc p) { s.cpu c with control := .releasing p } = .ok t) :
    Inv t := by
  obtain ⟨-, rfl⟩ := drop_ok h
  have left (i : Fin n) : Control.releasing p ≠ .running i := nofun
  have none_ : (s.cpu c).opens = 0 := by
    obtain ⟨count, held, ledger, sums⟩ := inv.balance
    have some_ : 0 < count c := by
      rw [ledger.counts]
      exact List.length_pos_of_mem ((ledger.owner _ _).mp mine)
    have sum := sums c
    omega
  refine inv.drop mine
    (.scheduling (inv.cpus c).off (And.intro idle ⟨one, by rw [none_]⟩) left) rfl rfl fun i => ?_
  exact iff_of_false (left i) (plain i)

theorem inv_turn (inv : Inv s) (h : turn s c = .ok t) : Inv t := by
  have old := inv.cpus c
  have phase := old.phase
  have le := inv.opens_le c
  unfold Phase at phase
  cases here : (s.cpu c).control with
  | scan p =>
    have plain (i : Fin n) : (s.cpu c).control ≠ .running i := by
      rw [here]
      exact nofun
    simp only [turn, here] at h
    split at h
    · cases h
    · rename_i ready
      obtain ⟨none_, acts⟩ := not_or.mp ready
      have idle := (acts_cases (not_not.mp acts)).1
      have zero := not_not.mp none_
      split at h
      · rename_i inside
        split at h
        · cases h
        · obtain rfl := Except.ok.inj h
          have left (i : Fin n) : Control.acquiring ⟨p, inside⟩ ≠ .running i := nofun
          refine inv.setCpu (.scheduling (fun _ => rfl) (And.intro idle ⟨?_, ?_⟩) left) ?_
            fun i => iff_of_false (left i) (plain i)
          · simp only [push_off, zero]
          · simp only [push_off]
            omega
          · simp only [push_off]
            omega
      · obtain rfl := Except.ok.inj h
        have left (i : Fin n) : Control.scan 0 ≠ .running i := nofun
        refine inv.setCpu (.scheduling (fun more => ?_) (.inl idle) left) rfl
          fun i => iff_of_false (left i) (plain i)
        exact absurd zero (Nat.ne_of_gt more)
  | acquiring p =>
    rw [here] at phase
    obtain ⟨idle, one, opens⟩ := phase
    simp only [turn, here] at h
    obtain ⟨free, rfl⟩ := take_ok h
    have left (i : Fin n) : Control.holding p ≠ .running i := nofun
    refine inv.take free (.scheduling old.off (And.intro idle ⟨one, update_self ..⟩) left) rfl ?_
      fun i => iff_of_false (left i) ?_
    · simp only [opens]
    · rw [here]
      exact nofun
  | holding p =>
    rw [here] at phase
    obtain ⟨idle, one, mine⟩ := phase
    simp only [turn, here] at h
    split at h
    · rename_i ready
      obtain rfl := Except.ok.inj h
      exact inv_dispatch inv here ready
    · exact inv_releasing inv idle one mine (by rw [here]; exact nofun) h
  | running i =>
    simp only [turn, here] at h
    cases h
  | returned p =>
    rw [here] at phase
    obtain ⟨idle, one, mine⟩ := phase
    simp only [turn, here] at h
    exact inv_releasing inv idle one mine (by rw [here]; exact nofun) h
  | releasing p =>
    rw [here] at phase
    obtain ⟨idle, one, opens⟩ := phase
    simp only [turn, here] at h
    obtain ⟨u, popped, h⟩ := bind_eq_ok.mp h
    obtain rfl := Except.ok.inj h
    obtain ⟨off, more, rfl⟩ := pop_off_ok popped
    have left (i : Fin n) : Control.scan (p.val + 1) ≠ .running i := nofun
    refine inv.setCpu (.scheduling (fun more => ?_) (.inl idle) left) ?_
      fun i => iff_of_false (left i) (by rw [here]; exact nofun)
    · simp only [one] at more
      exact absurd more (Nat.lt_irrefl 0)
    · simp only
      omega

theorem inv_perform (inv : Inv s) (acts : (s.cpu c).acts) {a : Action n L}
    (h : perform s c a = .ok t) : Inv t := by
  obtain ⟨idle, nests⟩ := acts_cases acts
  have old := inv.cpus c
  cases a with
  | push_off =>
    obtain rfl := Except.ok.inj h
    exact inv_pushed inv _ nests
  | pop_off =>
    simp only [perform] at h
    split at h
    · cases h
    · exact inv_popped inv nests (Nat.pos_of_ne_zero ‹_›) h
  | acquire l =>
    simp only [perform] at h
    split at h
    · cases h
    · obtain rfl := Except.ok.inj h
      exact inv_pushed inv _ nests
  | release l =>
    simp only [perform] at h
    split at h
    · rename_i p i runs
      split at h
      · cases h
      · rename_i stays
        refine inv_dropped inv nests (fun j here own => ?_) h
        obtain rfl := Control.running.inj (here.symm.trans runs)
        exact not_not.mp fun left => stays ⟨Lock.proc.inj own, left⟩
    · rename_i plain
      refine inv_dropped inv nests (fun i here own => ?_) h
      exact (plain i i own here).elim
  | intr sie =>
    simp only [perform] at h
    split at h
    · cases h
    · rename_i zero
      obtain rfl := Except.ok.inj h
      refine inv.setCpu ⟨fun more => ?_, phase_nests nests (.inl idle), old.owns, old.outside,
        old.inside⟩ rfl fun i => Iff.rfl
      exact absurd (not_not.mp zero) (Nat.ne_of_gt more)
  | leave st =>
    simp only [perform] at h
    split at h
    · rename_i i runs
      split at h
      · rename_i mine
        obtain rfl := Except.ok.inj h
        refine inv.setState fun d there => ?_
        rw [inv.alone d c i there runs]
        exact mine.1
      · cases h
    · cases h
  | sched =>
    simp only [perform] at h
    split at h
    · rename_i i runs
      exact inv_sched inv runs idle h
    · cases h
  | wake p =>
    simp only [perform] at h
    split at h
    · rename_i guarded
      obtain rfl := Except.ok.inj h
      refine inv.setState fun d there => (guards_parked inv guarded.1 ?_ d there).elim
      rw [guarded.2]
      decide
    · cases h
  | create p =>
    simp only [perform] at h
    split at h
    · rename_i guarded
      obtain rfl := Except.ok.inj h
      refine inv_create inv (guards_parked inv guarded.1 ?_)
      rw [guarded.2]
      decide
    · cases h
  | reap p =>
    simp only [perform] at h
    split at h
    · rename_i guarded
      obtain rfl := Except.ok.inj h
      refine inv.setState fun d there => (guards_parked inv guarded.1 ?_ d there).elim
      rw [guarded.2]
      decide
    · cases h
  | go => cases h
  | turn => cases h

theorem inv_step (inv : Inv s) {e : Event n L C} (h : step s e = .ok t) : Inv t := by
  obtain ⟨c, a⟩ := e
  unfold step at h
  cases a with
  | turn => exact inv_turn inv h
  | go =>
    cases here : (s.cpu c).mid with
    | none =>
      simp only [here] at h
      cases h
    | spins l =>
      simp only [here] at h
      obtain ⟨nests, some_⟩ := inv.amid (c := c) (by rw [here]; exact nofun)
      exact inv_gained inv nests some_ h
    | drops =>
      simp only [here] at h
      obtain ⟨nests, some_⟩ := inv.amid (c := c) (by rw [here]; exact nofun)
      exact inv_popped inv nests some_ h
  | _ =>
    simp only at h
    split at h
    · exact inv_perform inv ‹_› h
    · cases h

/-- A step before the outermost `pop_off` of a process completes. -/
def Within (i : Fin n) (s : State n L C) (e : Event n L C) : Prop :=
  e.action ≠ .create i ∧ match step s e with
    | .ok t => ¬ Exits s t e.cpu i
    | .error _ => True

instance (i : Fin n) (s : State n L C) (e : Event n L C) : Decidable (Within i s e) := by
  unfold Within
  split <;> infer_instance

theorem drop_effect {l : Lock n L} (h : NestedLocks.drop s c l u = .ok t)
    (noff : u.noff = (s.cpu c).noff) (a : Action n L) : Effect s t c a := by
  obtain ⟨-, rfl⟩ := drop_ok h
  exact .rest a rfl (fun d other => update_of_ne other _ _) fun i _ =>
    (setCpu_noff ..).trans noff

theorem take_effect {l : Lock n L} (h : NestedLocks.take s c l u = .ok t)
    (noff : u.noff = (s.cpu c).noff) (a : Action n L) : Effect s t c a := by
  obtain ⟨-, rfl⟩ := take_ok h
  exact .rest a rfl (fun d other => update_of_ne other _ _) fun i _ =>
    (setCpu_noff ..).trans noff

theorem turn_effect (h : turn s c = .ok t) (a : Action n L) : Effect s t c a := by
  unfold turn at h
  cases here : (s.cpu c).control with
  | scan p =>
    have plain (i : Fin n) : (s.cpu c).control ≠ .running i := by
      rw [here]
      exact nofun
    simp only [here] at h
    split at h
    · cases h
    · split at h
      · split at h
        · cases h
        · obtain rfl := Except.ok.inj h
          exact setCpu_effect s c _ a (.inr plain)
      · obtain rfl := Except.ok.inj h
        exact setCpu_effect s c _ a (.inr plain)
  | acquiring p =>
    simp only [here] at h
    exact take_effect h rfl a
  | holding p =>
    simp only [here] at h
    split at h
    · obtain rfl := Except.ok.inj h
      exact .rest a rfl (fun d other => update_of_ne other _ _) fun i _ =>
        setCpu_noff ..
    · exact drop_effect h rfl a
  | running i =>
    simp only [here] at h
    cases h
  | returned p =>
    simp only [here] at h
    exact drop_effect h rfl a
  | releasing p =>
    simp only [here] at h
    obtain ⟨u, -, h⟩ := bind_eq_ok.mp h
    obtain rfl := Except.ok.inj h
    refine setCpu_effect s c _ a (.inr fun i => ?_)
    rw [here]
    exact nofun

theorem step_effect {e : Event n L C} (h : step s e = .ok t) : Effect s t e.cpu e.action := by
  obtain ⟨c, a⟩ := e
  unfold step at h
  cases a with
  | turn => exact turn_effect h _
  | go =>
    cases here : (s.cpu c).mid with
    | none =>
      simp only [here] at h
      cases h
    | spins l =>
      simp only [here] at h
      exact take_effect h rfl _
    | drops =>
      simp only [here] at h
      exact .pop _ h
  | push_off =>
    simp only [perform] at h
    split at h
    · exact .push _ _ (Except.ok.inj h).symm
    · cases h
  | pop_off =>
    simp only [perform] at h
    split at h
    · split at h
      · cases h
      · exact .pop _ h
    · cases h
  | acquire l =>
    simp only [perform] at h
    split at h
    · split at h
      · cases h
      · exact .push _ _ (Except.ok.inj h).symm
    · cases h
  | release l =>
    simp only [perform] at h
    split at h
    · split at h
      · split at h
        · cases h
        · exact drop_effect h rfl _
      · exact drop_effect h rfl _
    · cases h
  | intr sie =>
    simp only [perform] at h
    split at h
    · split at h
      · cases h
      · obtain rfl := Except.ok.inj h
        exact setCpu_effect s c _ _ (.inl rfl)
    · cases h
  | leave st =>
    simp only [perform] at h
    split at h
    · split at h
      · split at h
        · obtain rfl := Except.ok.inj h
          exact setState_effect ..
        · cases h
      · cases h
    · cases h
  | sched =>
    simp only [perform] at h
    split at h
    · split at h
      · obtain ⟨-, -, -, rfl⟩ := sched_ok h
        exact .rest _ rfl (fun d other => update_of_ne other _ _) fun i _ =>
          setCpu_noff s c _
      · cases h
    · cases h
  | create p =>
    simp only [perform] at h
    split at h
    · split at h
      · obtain rfl := Except.ok.inj h
        exact .create p rfl fun i other => update_of_ne other _ _
      · cases h
    · cases h
  | wake p | reap p =>
    simp only [perform] at h
    split at h
    · split at h
      · obtain rfl := Except.ok.inj h
        exact setState_effect ..
      · cases h
    · cases h

/-- The outermost `push_off` notes whether interrupts were on. -/
theorem enters_notes (inv : Inv s) {e : Event n L C} (h : step s e = .ok t)
    (enters : Enters s t c i) : t.entered i = some (s.cpu c).sie := by
  obtain ⟨runs, zero, some_⟩ := enters
  have none_ : (s.cpu c).opens = 0 := Nat.le_zero.mp ((inv.opens_le c).trans_eq zero)
  have same (cpus : t.cpu c = s.cpu c) : False := some_ ((congrArg Cpu.noff cpus).trans zero)
  have effect := step_effect h
  generalize e.cpu = d, e.action = a at effect
  cases effect with
  | push a mid eq =>
    subst eq
    obtain rfl : d = c := by
      by_contra other
      exact same (by rw [pushed_cpu, update_of_ne (Ne.symm other)])
    change (s.enter (s.cpu d)).entered i = _
    rw [enter_entered, if_pos ⟨runs, zero⟩]
  | pop a popped =>
    have other : c ≠ d := by
      rintro rfl
      obtain ⟨u, ok, -⟩ := bind_eq_ok.mp popped
      obtain ⟨-, more, -⟩ := pop_off_ok ok
      omega
    exact (same (popped_others popped other)).elim
  | create p cpu notes => exact (same (congrFun cpu c)).elim
  | rest a notes others noff =>
    rcases eq_or_ne c d with rfl | other
    · exact (some_ ((noff i runs).trans zero)).elim
    · exact (same (others c other)).elim

/-- Only `pop_off` ends the nesting of a process. -/
theorem exits_popped {e : Event n L C} (h : step s e = .ok t) (exits : Exits s t c i) :
    popped s c = .ok t := by
  obtain ⟨runs, some_, zero⟩ := exits
  have same (cpus : t.cpu c = s.cpu c) : False := some_ ((congrArg Cpu.noff cpus).symm.trans zero)
  have effect := step_effect h
  generalize e.cpu = d, e.action = a at effect
  cases effect with
  | push a mid eq =>
    subst eq
    rw [pushed_cpu] at zero same
    rcases eq_or_ne c d with rfl | other
    · rw [update_self] at zero
      exact absurd zero (Nat.succ_ne_zero _)
    · exact (same (update_of_ne other _ _)).elim
  | pop a popped =>
    rcases eq_or_ne c d with rfl | other
    · exact popped
    · exact (same (popped_others popped other)).elim
  | create p cpu notes => exact (same (congrFun cpu c)).elim
  | rest a notes others noff =>
    rcases eq_or_ne c d with rfl | other
    · exact (some_ ((noff i runs).symm.trans zero)).elim
    · exact (same (others c other)).elim

/-- What a process noted stays until its outermost `pop_off` completes. -/
theorem noted_kept (inv : Inv s) {e : Event n L C} (h : step s e = .ok t) (within : Within i s e)
    {b : Bool} (noted : s.entered i = some b) : t.entered i = some b := by
  have outer (d : C) (runs : (s.cpu d).control = .running i) : (s.cpu d).noff ≠ 0 := by
    intro zero
    have none_ := (inv.cpus d).outside i runs zero
    rw [none_] at noted
    cases noted
  obtain ⟨fresh, inside⟩ := within
  rw [h] at inside
  have effect := step_effect h
  generalize e.cpu = d, e.action = a at effect fresh inside
  cases effect with
  | push a mid eq =>
    subst eq
    change (s.enter (s.cpu d)).entered i = _
    rw [enter_entered, if_neg fun first => outer d first.1 first.2]
    exact noted
  | pop a popped =>
    obtain ⟨u, ok, popped⟩ := bind_eq_ok.mp popped
    obtain rfl := Except.ok.inj popped
    obtain ⟨-, -, rfl⟩ := pop_off_ok ok
    rw [State.setCpu, forget_entered, if_neg fun last => ?_]
    · exact noted
    · refine inside ⟨last.1, outer d last.1, ?_⟩
      rw [setCpu_noff]
      exact last.2
  | create p cpu notes =>
    rw [notes i fun same => fresh (congrArg Action.create same.symm)]
    exact noted
  | rest a notes => rw [notes]; exact noted

theorem run_inv {up : Fin n → Bool} {es : List (Event n L C)}
    (h : run step (boot up) es = .ok s) : Inv s :=
  run_invariant_all (fun _ _ _ inv here => inv_step inv here) (boot_inv up) h

/-- A process's `pop_off` finds what its `push_off` noted. -/
theorem noted_run (inv : Inv s) {es : List (Event n L C)} {b : Bool} (noted : s.entered i = some b)
    (h : run step s es = .ok t) (within : Meets step (Within i) s es) : t.entered i = some b := by
  induction es generalizing s with
  | nil =>
    cases h
    exact noted
  | cons e es ih =>
    obtain ⟨r, first, h⟩ := run_cons_ok.mp h
    exact ih (inv_step inv first) (noted_kept inv first within.1 noted) h (within.2 r first)

/-- In every run: interrupts are off where a `push_off` is in force, `noff` counts the
locks that the CPU holds and the calls of `push_off` that are open on it, and the outermost
`pop_off` of a process leaves interrupts as its outermost `push_off` found them, however many
switches lie between and whatever CPU the process is on. -/
theorem pop_off_restores {up : Fin n → Bool} {es : List (Event n L C)}
    (h : run step (boot up) es = .ok s) :
    (∀ c, 0 < (s.cpu c).noff → (s.cpu c).sie = false) ∧
    (∀ c, ∃ held : List (Lock n L), held.Nodup ∧ (∀ l, l ∈ held ↔ s.lock l = some c) ∧
      (s.cpu c).noff = held.length + (s.cpu c).opens) ∧
    ∀ i c e₁ s₁ es' s₂ d e₂ t, step s e₁ = .ok s₁ → Enters s s₁ c i →
      run step s₁ es' = .ok s₂ → Meets step (Within i) s₁ es' →
      step s₂ e₂ = .ok t → Exits s₂ t d i → (t.cpu d).sie = (s.cpu c).sie := by
  have inv := run_inv h
  refine ⟨fun c => (inv.cpus c).off, fun c => ?_, ?_⟩
  · obtain ⟨count, held, ledger, sums⟩ := inv.balance
    refine ⟨held c, ledger.once c, fun l => (ledger.owner l c).symm, ?_⟩
    rw [sums, ledger.counts]
  · intro i c e₁ s₁ es' s₂ d e₂ t first enters between within last exits
    have inv₁ := inv_step inv first
    have inv₂ := run_invariant_all (fun _ _ _ inv here => inv_step inv here) inv₁ between
    have noted := noted_run inv₁ (enters_notes inv first enters) between within
    exact popped_restores inv₂ (exits_popped last exits) exits.1 exits.2.2 noted

/-- The first CPU runs the process, which turns interrupts off and yields, and the second
CPU takes it up. -/
def yields : List (Event 1 Unit Bool) × Event 1 Unit Bool × List (Event 1 Unit Bool) ×
    Event 1 Unit Bool :=
  ([⟨false, .turn⟩, ⟨false, .turn⟩, ⟨false, .turn⟩, ⟨false, .turn⟩,
      ⟨false, .release (.proc (Fin.last 0))⟩, ⟨false, .go⟩, ⟨false, .intr false⟩],
    ⟨false, .acquire (.proc (Fin.last 0))⟩,
    [⟨false, .go⟩, ⟨false, .leave .runnable⟩, ⟨false, .sched⟩, ⟨false, .turn⟩,
      ⟨true, .turn⟩, ⟨true, .turn⟩, ⟨true, .turn⟩, ⟨true, .turn⟩,
      ⟨true, .release (.proc (Fin.last 0))⟩],
    ⟨true, .go⟩)

theorem pop_off_restores_yields : ∃ s s₁ s₂ t,
    run step (boot fun _ => true) yields.1 = .ok s ∧ step s yields.2.1 = .ok s₁ ∧
    Enters s s₁ false 0 ∧ run step s₁ yields.2.2.1 = .ok s₂ ∧
    Meets step (Within 0) s₁ yields.2.2.1 ∧ step s₂ yields.2.2.2 = .ok t ∧ Exits s₂ t true 0 ∧
    (t.cpu true).sie = (s.cpu false).sie := by
  have first : run step (boot fun _ => true) yields.1 = .ok _ := rfl
  refine ⟨_, _, _, _, first, rfl, by decide, rfl, by decide, rfl, by decide, ?_⟩
  exact (pop_off_restores first).2.2 0 false yields.2.1 _ yields.2.2.1 _ true yields.2.2.2 _
    rfl (by decide) rfl (by decide) rfl (by decide)

end NestingInvariants
