import Xv6.LogOperations

/-!
# What is committed, and when

In every interleaving the process that commits is alone with the log: no
operation is in progress from the start of `commit` to its end. So what it
writes is what ended operations have logged since the commit before, and
nothing logged is lost between two commits. A process sleeps in `begin_op`
only while the test of `begin_op` would keep it there.
-/

namespace LogCommits
open EventRuns LogFormat LogOperations Tallies Function

variable {Proc : Type} [DecidableEq Proc] {s t : Log Proc} {e : Event Proc} {p q : Proc}

/-- `log.outstanding` counts the operations in progress. -/
def Counted [Fintype Proc] (s : Log Proc) : Prop :=
  s.outstanding = (∑ q, (s.place q).running : Nat)

/-- One process at most commits, and while it does no operation is counted. -/
structure Turns (s : Log Proc) : Prop where
  alone : ∀ p q phase phase', s.place p = .commit phase → s.place q = .commit phase' → p = q
  busy : ∀ p phase, s.place p = .commit phase → s.committing = true
  quiet : s.committing = true → s.outstanding = 0

section Counting

variable [Fintype Proc]

omit [DecidableEq Proc] in
/-- A process inside an operation is counted. -/
theorem Counted.begun (h : Counted s) {op : Nat} {own : List BlockNo}
    (here : s.place p = .inside op own) : 1 ≤ s.outstanding := by
  have one : (s.place p).running ≤ ∑ q, (s.place q).running :=
    le_sum Place.running s.place p
  rw [here] at one
  have counted : 1 ≤ ∑ q, (s.place q).running := one
  rw [Counted] at h
  omega

/-- One move changes the count by what the process counted for. -/
theorem Counted.move (h : Counted s) {there : Place} {d : Int}
    (change : d = there.running - (s.place p).running) :
    s.outstanding + d = (∑ q, (update s.place p there q).running : Nat) := by
  have count := sum_update Place.running s.place p there
  rw [Counted] at h
  omega

theorem Counted.stay (h : Counted s) {there : Place}
    (same : there.running = (s.place p).running) :
    s.outstanding = (∑ q, (update s.place p there q).running : Nat) := by
  have unchanged : (0 : Int) = there.running - (s.place p).running := by omega
  simpa using h.move unchanged

omit [DecidableEq Proc] in
theorem Counted.wakeup (h : Counted s) : Counted s.wakeup := by
  rw [Counted, Log.wakeup]
  simp only [sum_wake s.place running_wake]
  exact h

theorem counted_step (h : Counted s) (moves : Moves s e t) : Counted t := by
  cases moves with
  | waits p free full =>
    have same : Place.asleep.running = (s.place p).running := by
      rcases free with here | here <;> rw [here] <;> rfl
    exact h.stay same
  | begins p free admits =>
    have more : (1 : Int) = (Place.inside s.nextOp []).running - (s.place p).running := by
      rcases free with here | here <;> rw [here] <;> rfl
    exact h.move more
  | logs p b op own here room begun =>
    have same : (Place.inside op (own.insert b)).running = (s.place p).running := by
      rw [here]
      rfl
    exact h.stay same
  | endsLast p op own here idle last =>
    have less : (-1 : Int) = (Place.commit .start).running - (s.place p).running := by
      rw [here]
      rfl
    exact h.move less
  | ends p op own here idle more =>
    have less : (-1 : Int) = Place.outside.running - (s.wakeup.place p).running := by
      rw [wakeup_place, here]
      rfl
    exact h.wakeup.move less
  | commits p phase here more =>
    obtain ⟨⟨next, place⟩, outstanding, -⟩ := commitStep_along (s := s) (p := p) more
    have same : (Place.commit next).running = (s.place p).running := by
      rw [here]
      rfl
    rw [Counted, place, outstanding]
    exact h.stay same
  | finishes p here =>
    have same : Place.outside.running = (s.wakeup.place p).running := by
      rw [wakeup_place, here]
      rfl
    exact h.wakeup.stay same
  | killed p here =>
    have same : Place.woken.running = (s.place p).running := by
      rw [here]
      rfl
    exact h.stay same
  | nothing p => exact h

omit [DecidableEq Proc] in
theorem Counted.not_committing (h : Counted s) (turns : Turns s) {op : Nat} {own : List BlockNo}
    (here : s.place p = .inside op own) : s.committing = false := by
  cases busy : s.committing with
  | false => rfl
  | true =>
    have begun := h.begun here
    have quiet := turns.quiet busy
    omega

end Counting

omit [DecidableEq Proc] in
theorem Turns.nobody (h : Turns s) (idle : s.committing = false) (q : Proc) (phase : Phase) :
    s.place q ≠ .commit phase := by
  intro here
  have busy := h.busy q phase here
  simp [idle] at busy

omit [DecidableEq Proc] in
/-- No process has come to commit. -/
theorem Turns.inherit (h : Turns s)
    (commits : ∀ q phase, t.place q = .commit phase → ∃ before, s.place q = .commit before)
    (same : t.committing = s.committing) (quiet : s.committing = true → t.outstanding = 0) :
    Turns t := by
  constructor
  · intro a b phase phase' ha hb
    obtain ⟨before, ha⟩ := commits a phase ha
    obtain ⟨before', hb⟩ := commits b phase' hb
    exact h.alone a b before before' ha hb
  · intro a phase ha
    obtain ⟨before, ha⟩ := commits a phase ha
    rw [same]
    exact h.busy a before ha
  · rw [same]
    exact quiet

theorem commits_update {there : Place}
    (own : ∀ phase, there = .commit phase → ∃ before, s.place p = .commit before) (q : Proc)
    (phase : Phase) (here : update s.place p there q = .commit phase) :
    ∃ before, s.place q = .commit before := by
  by_cases self : q = p
  · subst self
    rw [update_self] at here
    exact own phase here
  · rw [update_of_ne self] at here
    exact ⟨phase, here⟩

omit [DecidableEq Proc] in
theorem Turns.wakeup (h : Turns s) : Turns s.wakeup :=
  h.inherit (fun _ phase here => ⟨phase, wake_eq_commit.mp here⟩) rfl h.quiet

theorem turns_step (h : Turns s) (moves : Moves s e t) : Turns t := by
  cases moves with
  | waits p free full => exact h.inherit (commits_update (by simp)) rfl h.quiet
  | begins p free admits =>
    have idle : s.committing = true → s.outstanding + 1 = 0 := by simp [admits.1]
    exact h.inherit (commits_update (by simp)) rfl idle
  | logs p b op own here room begun => exact h.inherit (commits_update (by simp)) rfl h.quiet
  | endsLast p op own here idle last =>
    have first : ∀ q phase, update s.place p (.commit .start) q = .commit phase → q = p := by
      intro q phase hq
      by_contra other
      rw [update_of_ne other] at hq
      exact h.nobody idle q phase hq
    constructor
    · intro a b phase phase' ha hb
      rw [first a phase ha, first b phase' hb]
    · intro _ _ _
      rfl
    · intro _
      exact last
  | ends p op own here idle more =>
    have quiet : s.committing = true → s.outstanding - 1 = 0 := by simp [idle]
    exact h.wakeup.inherit (commits_update (by simp)) rfl quiet
  | commits p phase here more =>
    obtain ⟨⟨next, place⟩, outstanding, committing, -⟩ := commitStep_along (s := s) (p := p) more
    apply h.inherit _ committing
    · rw [outstanding]
      exact h.quiet
    · rw [place]
      exact commits_update fun _ _ => ⟨phase, here⟩
  | finishes p here =>
    have none_left : ∀ q phase, update s.wakeup.place p .outside q ≠ .commit phase := by
      intro q phase hq
      by_cases self : q = p
      · subst self
        simp at hq
      · rw [update_of_ne self, wakeup_place, wake_eq_commit] at hq
        exact self (h.alone q p phase .finish hq here)
    constructor
    · intro a b phase phase' ha
      exact absurd ha (none_left a phase)
    · intro a phase ha
      exact absurd ha (none_left a phase)
    · intro busy
      exact nomatch busy
  | killed p here => exact h.inherit (commits_update (by simp)) rfl h.quiet
  | nothing p => exact h

/-- Whoever sleeps in `begin_op` would not get past its test. -/
def Detained (s : Log Proc) : Prop := ∀ p, s.place p = .asleep → ¬ Admits s

theorem asleep_update {there : Place} (awake : there ≠ .asleep)
    (here : update s.place p there q = .asleep) : s.place q = .asleep := by
  by_cases self : q = p
  · subst self
    rw [update_self] at here
    exact absurd here awake
  · rwa [update_of_ne self] at here

theorem detained_step (h : Detained s) (turns : Turns s) (moves : Moves s e t) :
    Detained t := by
  intro q asleep
  cases moves with
  | waits p free full => exact full
  | begins p free admits =>
    have before := h q (asleep_update (by simp) asleep)
    exact absurd admits before
  | logs p b op own here room begun =>
    have before := h q (asleep_update (by simp) asleep)
    have grown : s.lh.length ≤ (absorb s.lh b).length := by
      rw [absorb_length]
      split <;> omega
    rintro ⟨idle, fits⟩
    refine before ⟨idle, fun full => fits ?_⟩
    simp only [MAXOPBLOCKS, LOGSIZE] at full ⊢
    have same : (s.goTo p (.inside op (own.insert b))).outstanding = s.outstanding := rfl
    omega
  | endsLast p op own here idle last =>
    rintro ⟨idle, -⟩
    exact nomatch idle
  | ends p op own here idle more =>
    have before := asleep_update (by simp) asleep
    simp at before
  | commits p phase here more =>
    obtain ⟨-, -, committing, -⟩ := commitStep_along (s := s) (p := p) more
    rintro ⟨idle, -⟩
    rw [committing, turns.busy p phase here] at idle
    exact nomatch idle
  | finishes p here =>
    have before := asleep_update (by simp) asleep
    simp at before
  | killed p here =>
    have before := h q (asleep_update (by simp) asleep)
    exact before
  | nothing p => exact h q asleep

/-- An operation has one process and one number, and is in progress or ended. -/
structure Numbered (s : Log Proc) : Prop where
  running : ∀ p op own, s.place p = .inside op own → op < s.nextOp ∧ op ∉ s.ended
  distinct : ∀ p q op own own', s.place p = .inside op own → s.place q = .inside op own' → p = q
  past : ∀ op ∈ s.ended, op < s.nextOp
  owned : ∀ op b, (op, b) ∈ s.logged → op ∈ s.ended ∨ ∃ p own, s.place p = .inside op own

/-- Where a process is inside an operation after a move. -/
theorem inside_update {there : Place} {op : Nat} {own : List BlockNo}
    (here : update s.place p there q = .inside op own) :
    q = p ∧ there = .inside op own ∨ q ≠ p ∧ s.place q = .inside op own := by
  by_cases self : q = p
  · subst self
    rw [update_self] at here
    exact Or.inl ⟨rfl, here⟩
  · rw [update_of_ne self] at here
    exact Or.inr ⟨self, here⟩

omit [DecidableEq Proc] in
/-- Nobody enters or leaves an operation. -/
theorem Numbered.inherit (h : Numbered s) (nextOp : t.nextOp = s.nextOp)
    (ended : t.ended = s.ended) (logged : ∀ l ∈ t.logged, l ∈ s.logged)
    (inside : ∀ q op own, t.place q = .inside op own ↔ s.place q = .inside op own) :
    Numbered t where
  running := by
    intro q op own here
    rw [nextOp, ended]
    exact h.running q op own ((inside q op own).mp here)
  distinct := by
    intro a b op own own' ha hb
    exact h.distinct a b op own own' ((inside a op own).mp ha) ((inside b op own').mp hb)
  past := by
    rw [nextOp, ended]
    exact h.past
  owned := by
    intro op b mem
    rw [ended]
    rcases h.owned op b (logged _ mem) with done | ⟨q, own, here⟩
    · exact Or.inl done
    · exact Or.inr ⟨q, own, (inside q op own).mpr here⟩

theorem inside_update_iff {there : Place} (before : ∀ op own, s.place p ≠ .inside op own)
    (after : ∀ op own, there ≠ .inside op own) (q : Proc) (op : Nat) (own : List BlockNo) :
    update s.place p there q = .inside op own ↔ s.place q = .inside op own := by
  by_cases self : q = p
  · subst self
    simp [before, after]
  · rw [update_of_ne self]

omit [DecidableEq Proc] in
theorem Numbered.wakeup (h : Numbered s) : Numbered s.wakeup :=
  h.inherit rfl rfl (fun _ mem => mem) fun _ _ _ => wake_eq_inside

/-- The end of an operation. -/
theorem Numbered.endOp (h : Numbered s) {op : Nat} {own : List BlockNo}
    (here : s.place p = .inside op own) {there : Place}
    (aside : ∀ op own, there ≠ .inside op own) (nextOp : t.nextOp = s.nextOp)
    (ended : t.ended = op :: s.ended) (logged : t.logged = s.logged)
    (place : t.place = update s.place p there) : Numbered t where
  running := by
    intro q op' own' inside
    rw [place] at inside
    rcases inside_update inside with ⟨-, eq⟩ | ⟨other, inside⟩
    · exact absurd eq (aside op' own')
    · obtain ⟨below, open_⟩ := h.running q op' own' inside
      have apart : op' ≠ op := by
        rintro rfl
        exact other (h.distinct q p op' own' own inside here)
      rw [nextOp, ended]
      exact ⟨below, by simp [apart, open_]⟩
  distinct := by
    intro a b op' own' own'' ha hb
    rw [place] at ha hb
    rcases inside_update ha with ⟨-, eq⟩ | ⟨-, ha⟩
    · exact absurd eq (aside op' own')
    · rcases inside_update hb with ⟨-, eq⟩ | ⟨-, hb⟩
      · exact absurd eq (aside op' own'')
      · exact h.distinct a b op' own' own'' ha hb
  past := by
    rw [nextOp, ended]
    intro op' mem
    rcases List.mem_cons.mp mem with rfl | mem
    · exact (h.running p op' own here).1
    · exact h.past op' mem
  owned := by
    intro op' b mem
    rw [ended]
    rw [logged] at mem
    rcases h.owned op' b mem with done | ⟨q, own', inside⟩
    · exact Or.inl (List.mem_cons_of_mem _ done)
    · by_cases self : q = p
      · subst self
        rw [here] at inside
        obtain ⟨rfl, -⟩ := Place.inside.inj inside
        exact Or.inl List.mem_cons_self
      · exact Or.inr ⟨q, own', by rw [place, update_of_ne self, inside]⟩

theorem Numbered.beginOp (h : Numbered s) (free : ∀ op own, s.place p ≠ .inside op own)
    (nextOp : t.nextOp = s.nextOp + 1) (ended : t.ended = s.ended) (logged : t.logged = s.logged)
    (place : t.place = update s.place p (.inside s.nextOp [])) : Numbered t where
  running := by
    intro q op own inside
    rw [place] at inside
    rw [nextOp, ended]
    rcases inside_update inside with ⟨-, eq⟩ | ⟨-, inside⟩
    · obtain ⟨rfl, -⟩ := Place.inside.inj eq
      exact ⟨Nat.lt_succ_self _, fun mem => Nat.lt_irrefl _ (h.past _ mem)⟩
    · obtain ⟨below, open_⟩ := h.running q op own inside
      exact ⟨Nat.lt_succ_of_lt below, open_⟩
  distinct := by
    intro a b op own own' ha hb
    rw [place] at ha hb
    rcases inside_update ha with ⟨atA, eqA⟩ | ⟨-, ha⟩ <;>
      rcases inside_update hb with ⟨atB, eqB⟩ | ⟨-, hb⟩
    · exact atA.trans atB.symm
    · obtain ⟨rfl, -⟩ := Place.inside.inj eqA
      exact absurd (h.running b _ own' hb).1 (Nat.lt_irrefl _)
    · obtain ⟨rfl, -⟩ := Place.inside.inj eqB
      exact absurd (h.running a _ own ha).1 (Nat.lt_irrefl _)
    · exact h.distinct a b op own own' ha hb
  past := by
    rw [nextOp, ended]
    exact fun op mem => Nat.lt_succ_of_lt (h.past op mem)
  owned := by
    intro op b mem
    rw [logged] at mem
    rw [ended]
    rcases h.owned op b mem with done | ⟨q, own, inside⟩
    · exact Or.inl done
    · have other : q ≠ p := by
        rintro rfl
        exact free op own inside
      exact Or.inr ⟨q, own, by rw [place, update_of_ne other, inside]⟩

/-- An operation goes on, with one more block logged. -/
theorem Numbered.logWrite (h : Numbered s) {op : Nat} {own own' : List BlockNo} {b : BlockNo}
    (here : s.place p = .inside op own) (nextOp : t.nextOp = s.nextOp) (ended : t.ended = s.ended)
    (logged : t.logged = (op, b) :: s.logged)
    (place : t.place = update s.place p (.inside op own')) : Numbered t := by
  have before : ∀ q op' own'', t.place q = .inside op' own'' →
      ∃ own, s.place q = .inside op' own := by
    intro q op' own'' inside
    rw [place] at inside
    rcases inside_update inside with ⟨rfl, eq⟩ | ⟨-, inside⟩
    · obtain ⟨rfl, -⟩ := Place.inside.inj eq
      exact ⟨own, here⟩
    · exact ⟨own'', inside⟩
  constructor
  · intro q op' own'' inside
    obtain ⟨own, inside⟩ := before q op' own'' inside
    rw [nextOp, ended]
    exact h.running q op' own inside
  · intro a c op' o o' ha hc
    obtain ⟨o, ha⟩ := before a op' o ha
    obtain ⟨o', hc⟩ := before c op' o' hc
    exact h.distinct a c op' o o' ha hc
  · rw [nextOp, ended]
    exact h.past
  · intro op' c mem
    rw [logged] at mem
    rw [ended]
    have running : ∃ o, t.place p = .inside op o := ⟨own', by rw [place, update_self]⟩
    rcases List.mem_cons.mp mem with eq | mem
    · obtain ⟨rfl, -⟩ := Prod.mk.inj eq
      exact Or.inr ⟨p, running⟩
    · rcases h.owned op' c mem with done | ⟨q, o, inside⟩
      · exact Or.inl done
      · by_cases self : q = p
        · subst self
          rw [here] at inside
          obtain ⟨rfl, -⟩ := Place.inside.inj inside
          exact Or.inr ⟨q, running⟩
        · exact Or.inr ⟨q, o, by rw [place, update_of_ne self, inside]⟩

theorem commitStep_logged (phase : Phase) : ∀ l ∈ (commitStep s p phase).logged, l ∈ s.logged := by
  intro l mem
  cases phase with
  | start =>
    simp only [commitStep] at mem
    split at mem <;> exact mem
  | writeLog tail =>
    simp only [commitStep] at mem
    split at mem <;> exact mem
  | installTrans tail =>
    simp only [commitStep] at mem
    split at mem <;> exact mem
  | writeHead => simp [commitStep] at mem
  | _ => exact mem

theorem numbered_step (h : Numbered s) (moves : Moves s e t) : Numbered t := by
  cases moves with
  | waits p free full =>
    have aside : ∀ op own, s.place p ≠ .inside op own := by
      rcases free with here | here <;> simp [here]
    exact h.inherit rfl rfl (fun _ mem => mem) (inside_update_iff aside (by simp))
  | begins p free admits =>
    have aside : ∀ op own, s.place p ≠ .inside op own := by
      rcases free with here | here <;> simp [here]
    exact h.beginOp aside rfl rfl rfl rfl
  | logs p b op own here room begun => exact h.logWrite here rfl rfl rfl rfl
  | endsLast p op own here idle last => exact h.endOp here (by simp) rfl rfl rfl rfl
  | ends p op own here idle more =>
    exact h.wakeup.endOp (wake_eq_inside.mpr here) (by simp) rfl rfl rfl rfl
  | commits p phase here more =>
    obtain ⟨⟨next, place⟩, -, -, nextOp, ended⟩ := commitStep_along (s := s) (p := p) more
    apply h.inherit nextOp ended (commitStep_logged phase)
    rw [place]
    exact inside_update_iff (by simp [here]) (by simp)
  | finishes p here =>
    exact h.wakeup.inherit rfl rfl (fun _ mem => mem)
      (inside_update_iff (by simp [here]) (by simp))
  | killed p here =>
    exact h.inherit rfl rfl (fun _ mem => mem) (inside_update_iff (by simp [here]) (by simp))
  | nothing p => exact h

/-- The log holds the blocks logged since the last commit. -/
def Listed (s : Log Proc) : Prop := ∀ b, b ∈ s.lh ↔ ∃ op, (op, b) ∈ s.logged

/-- What holds while `commit` is in a phase. Between the header write and the
clearing of the log, everything logged has been committed. -/
def Doing (s : Log Proc) : Phase → Prop
  | .writeLog tail => Listed s ∧ s.copied = s.lh.take tail ∧ tail ≤ s.lh.length
  | .writeHead => Listed s ∧ s.copied = s.lh
  | .installTrans _ => s.logged = []
  | .clear => s.logged = []
  | _ => Listed s

/-- The commit wrote exactly the blocks logged since the one before, each once
and each by operations that had ended. -/
structure Exact (c : Commit) : Prop where
  copied : c.copied = c.header
  nodup : c.header.Nodup
  listed : ∀ b, b ∈ c.header ↔ ∃ op, (op, b) ∈ c.logged
  ended : ∀ op b, (op, b) ∈ c.logged → op ∈ c.ended

structure Recorded (s : Log Proc) : Prop where
  idle : s.committing = false → Listed s
  doing : ∀ p phase, s.place p = .commit phase → Doing s phase
  nodup : s.lh.Nodup
  exact : ∀ c ∈ s.commits, Exact c

omit [DecidableEq Proc] in
/-- The log and its records are as before, and nobody has come to commit. -/
theorem Recorded.inherit (h : Recorded s) (committing : t.committing = s.committing)
    (lh : t.lh = s.lh) (logged : t.logged = s.logged) (copied : t.copied = s.copied)
    (commits : t.commits = s.commits)
    (place : ∀ q phase, t.place q = .commit phase → s.place q = .commit phase) : Recorded t where
  idle := by
    rw [committing, Listed, lh, logged]
    exact h.idle
  doing := by
    intro q phase here
    have before := h.doing q phase (place q phase here)
    cases phase <;> simpa only [Doing, Listed, lh, logged, copied] using before
  nodup := by
    rw [lh]
    exact h.nodup
  exact := by
    rw [commits]
    exact h.exact

theorem commit_of_update {there : Place} (aside : ∀ phase, there ≠ .commit phase) (q : Proc)
    (phase : Phase) (here : update s.place p there q = .commit phase) :
    s.place q = .commit phase := by
  by_cases self : q = p
  · subst self
    rw [update_self] at here
    exact absurd here (aside phase)
  · rwa [update_of_ne self] at here

omit [DecidableEq Proc] in
theorem Recorded.wakeup (h : Recorded s) : Recorded s.wakeup :=
  h.inherit rfl rfl rfl rfl rfl fun _ _ here => wake_eq_commit.mp here

/-- A step of the one process that commits. -/
theorem Turns.recorded (turns : Turns s) {phase next : Phase}
    (here : s.place p = .commit phase) (place : t.place = update s.place p (.commit next))
    (busy : t.committing = true) (doing : Doing t next) (nodup : t.lh.Nodup)
    (exact_ : ∀ c ∈ t.commits, Exact c) : Recorded t where
  idle := by simp [busy]
  doing := by
    intro q phase' there
    rw [place] at there
    by_cases self : q = p
    · subst self
      rw [update_self] at there
      exact Place.commit.inj there ▸ doing
    · rw [update_of_ne self] at there
      exact absurd (turns.alone q p phase' phase there here) self
  nodup := nodup
  exact := exact_

theorem recorded_commitStep [Fintype Proc] (h : Recorded s) (turns : Turns s)
    (counted : Counted s) (numbered : Numbered s) {phase : Phase}
    (here : s.place p = .commit phase) (more : phase ≠ .finish) :
    Recorded (commitStep s p phase) := by
  have busy := turns.busy p phase here
  have doing := h.doing p phase here
  cases phase with
  | start =>
    simp only [commitStep]
    split
    · exact turns.recorded here rfl busy ⟨doing, rfl, Nat.zero_le _⟩ h.nodup h.exact
    · exact turns.recorded here rfl busy doing h.nodup h.exact
  | writeLog tail =>
    obtain ⟨listed, copied, inside⟩ := doing
    simp only [commitStep]
    split
    next less =>
      have longer : s.copied ++ [s.lh.getD tail 0] = s.lh.take (tail + 1) := by
        rw [copied, List.take_add_one, List.getD_eq_getElem?_getD, List.getElem?_eq_getElem less]
        rfl
      exact turns.recorded here rfl busy ⟨listed, longer, less⟩ h.nodup h.exact
    next all =>
      have whole : s.copied = s.lh := by
        rw [copied, List.take_of_length_le (by omega)]
      exact turns.recorded here rfl busy ⟨listed, whole⟩ h.nodup h.exact
  | writeHead =>
    obtain ⟨listed, copied⟩ := doing
    have none_running : ∀ q op own, s.place q ≠ .inside op own := by
      intro q op own inside
      have idle := counted.not_committing turns inside
      simp [busy] at idle
    have ended : ∀ op b, (op, b) ∈ s.logged → op ∈ s.ended := by
      intro op b mem
      rcases numbered.owned op b mem with done | ⟨q, own, inside⟩
      · exact done
      · exact absurd inside (none_running q op own)
    have exact_ : ∀ c ∈ (commitStep s p .writeHead).commits, Exact c := by
      intro c mem
      rcases List.mem_cons.mp mem with rfl | mem
      · exact ⟨copied, h.nodup, listed, ended⟩
      · exact h.exact c mem
    exact turns.recorded here rfl busy rfl h.nodup exact_
  | installTrans tail =>
    simp only [commitStep]
    split
    · exact turns.recorded here rfl busy doing h.nodup h.exact
    · exact turns.recorded here rfl busy doing h.nodup h.exact
  | clear =>
    have listed : Listed (commitStep s p .clear) := by
      have doing : s.logged = [] := doing
      intro b
      simp [commitStep, Log.goTo, doing]
    exact turns.recorded here rfl busy listed List.nodup_nil h.exact
  | erase => exact turns.recorded here rfl busy doing h.nodup h.exact
  | finish => exact absurd rfl more

theorem recorded_step [Fintype Proc] (h : Recorded s) (turns : Turns s) (counted : Counted s)
    (numbered : Numbered s) (moves : Moves s e t) : Recorded t := by
  cases moves with
  | waits p free full => exact h.inherit rfl rfl rfl rfl rfl (commit_of_update (by simp))
  | begins p free admits => exact h.inherit rfl rfl rfl rfl rfl (commit_of_update (by simp))
  | logs p b op own here room begun =>
    have idle := counted.not_committing turns here
    have listed := h.idle idle
    constructor
    · intro _ c
      simp only [mem_absorb, listed c, List.mem_cons, Prod.mk.injEq]
      constructor
      · rintro (rfl | ⟨op', mem⟩)
        · exact ⟨op, Or.inl ⟨rfl, rfl⟩⟩
        · exact ⟨op', Or.inr mem⟩
      · rintro ⟨op', ⟨-, rfl⟩ | mem⟩
        · exact Or.inl rfl
        · exact Or.inr ⟨op', mem⟩
    · intro q phase there
      exact absurd (commit_of_update (by simp) q phase there) (turns.nobody idle q phase)
    · exact absorb_nodup h.nodup
    · exact h.exact
  | endsLast p op own here idle last =>
    constructor
    · intro free
      exact nomatch free
    · intro q phase there
      by_cases self : q = p
      · subst self
        simp only [goTo_place, update_self, Place.commit.injEq] at there
        subst there
        exact h.idle idle
      · simp only [goTo_place, update_of_ne self] at there
        exact absurd there (turns.nobody idle q phase)
    · exact h.nodup
    · exact h.exact
  | ends p op own here idle more =>
    exact h.wakeup.inherit rfl rfl rfl rfl rfl (commit_of_update (by simp))
  | commits p phase here more => exact recorded_commitStep h turns counted numbered here more
  | finishes p here =>
    constructor
    · intro _
      exact h.doing p .finish here
    · intro q phase there
      by_cases self : q = p
      · subst self
        simp at there
      · simp only [goTo_place, update_of_ne self, wakeup_place, wake_eq_commit] at there
        exact absurd (turns.alone q p phase .finish there here) self
    · exact h.nodup
    · exact h.exact
  | killed p here => exact h.inherit rfl rfl rfl rfl rfl (commit_of_update (by simp))
  | nothing p => exact h

structure Sound [Fintype Proc] (s : Log Proc) : Prop where
  counted : Counted s
  turns : Turns s
  detained : Detained s
  numbered : Numbered s
  recorded : Recorded s

variable [Fintype Proc]

omit [DecidableEq Proc] in
theorem initlog_sound (nlog : BitVec 32) : Sound (initlog nlog : Log Proc) := by
  constructor
  · simp [Counted, initlog, Place.running]
  · constructor <;> simp [initlog]
  · intro p asleep
    exact nomatch asleep
  · constructor <;> simp [initlog]
  · constructor <;> simp [initlog, Listed]

theorem sound_step (h : Sound s) (step_ : step s e = .ok t) : Sound t := by
  have moves := step_moves step_
  exact ⟨counted_step h.counted moves, turns_step h.turns moves,
    detained_step h.detained h.turns moves, numbered_step h.numbered moves,
    recorded_step h.recorded h.turns h.counted h.numbered moves⟩

/-- Only a process inside an operation makes these calls, and it is counted. -/
theorem Sound.no_panic (h : Sound s) (e : Event Proc) :
    step s e ≠ .error .committing ∧ step s e ≠ .error .outsideTrans := by
  cases e with
  | logWrite p b =>
    simp only [step]
    split
    next op own here =>
      have begun := h.counted.begun here
      simp only [logWrite]
      split
      · simp
      · split
        · omega
        · simp
    next => simp
  | endOp p =>
    simp only [step]
    split
    next op own here =>
      have idle := h.counted.not_committing h.turns here
      simp only [endOp, idle, Bool.false_eq_true, if_false]
      split <;> simp
    next => simp
  | _ =>
    simp only [step]
    split <;> simp

/-- `commit` runs with no operation in progress and writes exactly what ended
operations have logged since the commit before; no process sleeps in
`begin_op` that its test would let through, and two panics are unreachable. -/
theorem commits_sound (nlog : BitVec 32) (es : List (Event Proc)) :
    (∀ t, run step (initlog nlog) es = .ok t →
      (∀ p phase, t.place p = .commit phase →
        t.outstanding = 0 ∧ ∀ q op own, t.place q ≠ .inside op own) ∧
      (∀ c ∈ t.commits, Exact c) ∧
      (∀ p op own, t.place p = .inside op own → op ∉ t.ended) ∧
      ∀ p, t.place p = .asleep → ¬ Admits t) ∧
    run step (initlog nlog) es ≠ .error (.committing : Fault) ∧
      run step (initlog nlog) es ≠ .error (.outsideTrans : Fault) := by
  have keep : ∀ (s : Log Proc) e t, Sound s → step s e = .ok t → Sound t :=
    fun _ _ _ sound => sound_step sound
  have start : Sound (initlog nlog : Log Proc) := initlog_sound nlog
  refine ⟨?_, run_ne_error keep (fun s e h => (h.no_panic e).1) start,
    run_ne_error keep (fun s e h => (h.no_panic e).2) start⟩
  intro t reached
  have sound := run_invariant_all keep start reached
  refine ⟨?_, sound.recorded.exact, ?_, sound.detained⟩
  · intro p phase here
    have busy := sound.turns.busy p phase here
    refine ⟨sound.turns.quiet busy, ?_⟩
    intro q op own inside
    have idle := sound.counted.not_committing sound.turns inside
    simp [busy] at idle
  · intro p op own here
    exact (sound.numbered.running p op own here).2

end LogCommits
