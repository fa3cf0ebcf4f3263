import Xv6.Lib.Outcomes
import Xv6.PipeCalls

/-!
# Sleepers on a pipe

A process asleep on a pipe has a reason to wait, or the process with the lock of the
pipe still has to wake it up. The one way out of a call that breaks this is the return
of a killed writer that has stored bytes since it last woke the readers up.
-/

namespace PipeWakeups

open ByteMemory EventRuns Function PipeCalls

variable {n : Nat} {s t : State n} {e : Event n}

def drowsesOn (chan : Chan) : Pc → Bool
  | .drowsy c _ => c = chan
  | _ => false

/-- The process is `SLEEPING` on the channel, or will be before it gives up its own lock. -/
def Waits (s : State n) (p : Fin n) (chan : Chan) : Prop :=
  drowsesOn chan (s.pc p) = true ∨ (s.pc p).sleepsOn chan = true ∧ s.asleep p = true

instance (s : State n) (p : Fin n) (chan : Chan) : Decidable (Waits s p chan) :=
  inferInstanceAs (Decidable (_ ∨ _))

/-- There is a reason to sleep on the channel. -/
def Blocks (pi : Pipe) : Chan → Prop
  | .nread => pi.empty ∧ pi.writeopen = true
  | .nwrite => pi.full ∧ pi.readopen = true

/-- While the lock of the pipe is free, every sleeper has a reason. -/
def Sound (s : State n) : Prop :=
  s.lock = none → ∀ p chan, (s.pc p).sleepsOn chan = true → s.asleep p = true →
    Blocks s.pipe chan

/-- The process has stored bytes since it last woke the readers up, and has more to store. -/
def Unannounced : Pc → Bool
  | .writing w => w.count < w.bytes.length ∧ w.announced < w.count
  | _ => false

/-- A killed writer leaves its loop with bytes that it has not announced while a reader waits. -/
def Strands (s : State n) : Event n → Prop
  | .go p _ => s.killed p = true ∧ Unannounced (s.pc p) = true ∧ ∃ q, Waits s q .nread
  | _ => False

instance (s : State n) : ∀ e, Decidable (Strands s e)
  | .go _ _ => inferInstanceAs (Decidable (_ ∧ _))
  | .pipewrite _ _ | .piperead _ _ | .pipeclose _ _ | .kill _ => isFalse id

/-- The process will still wake up slot `q` on the channel. -/
def Owes (q : Fin n) (chan : Chan) : Pc → Prop
  | .writing w => chan = .nread ∧ w.announced < w.count
  | .copying _ i => chan = .nwrite ∧ 0 < i
  | .waking c k _ => c = chan ∧ k ≤ q
  | _ => False

/-- Every sleeper has a reason or is about to be woken up. -/
def Awaited (s : State n) : Prop :=
  ∀ q chan, Waits s q chan → Blocks s.pipe chan ∨ ∃ p, Owes q chan (s.pc p)

/-- What a process knows of the pipe and of the bytes it has announced. -/
def Knows (pi : Pipe) : Pc → Prop
  | .writing w => w.announced ≤ w.count ∧ (w.announced < w.count → pi.readopen = true)
  | .waking _ _ (.sleep w) => w.announced = w.count ∧ Blocks pi .nwrite
  | .drowsy _ (.writing w) | .sleeping _ (.writing w) => w.announced = w.count
  | _ => True

structure Inv (s : State n) : Prop where
  mutual_ : Mutual s
  awaited : Awaited s
  knows : ∀ p, Knows s.pipe (s.pc p)

theorem owes_holds {q : Fin n} {chan : Chan} {pc : Pc} (owes : Owes q chan pc) :
    pc.holds = true := by
  cases pc with
  | writing w => rfl
  | copying count i => rfl
  | waking c k after => rfl
  | idle => cases owes
  | reading count => cases owes
  | drowsy c back => cases owes
  | sleeping c back => cases owes

/-- Without the lock a process knows nothing of the pipe. -/
theorem Knows.free {pi pi' : Pipe} {pc : Pc} (knows : Knows pi pc) (free : pc.holds = false) :
    Knows pi' pc := by
  cases pc with
  | writing w => cases free
  | reading count => cases free
  | copying count i => cases free
  | waking chan k after => cases free
  | idle => trivial
  | drowsy chan back => cases back <;> exact knows
  | sleeping chan back => cases back <;> exact knows

theorem knows_move (knows : ∀ q, Knows s.pipe (s.pc q)) {p : Fin n} {pc : Pc}
    (there : t.pc = update s.pc p pc) (new : Knows t.pipe pc)
    (alone : t.pipe = s.pipe ∨ ∀ q, q ≠ p → (s.pc q).holds = false) :
    ∀ q, Knows t.pipe (t.pc q) := by
  intro q
  rw [there]
  by_cases here : q = p
  · subst here
    rwa [update_self]
  · rw [update_of_ne here]
    rcases alone with same | alone
    · rw [same]
      exact knows q
    · exact (knows q).free (alone q here)

/-- A step of one process keeps sleepers awaited: new ones have a reason, a reason that goes
and a debt that goes are both made up for. -/
theorem awaited_move (awaited : Awaited s) {p : Fin n} {pc : Pc} (there : t.pc = update s.pc p pc)
    (old : ∀ q chan, Waits t q chan → Waits s q chan ∨ Blocks t.pipe chan)
    (reason : ∀ q chan, Waits t q chan → Waits s q chan → Blocks s.pipe chan →
      Blocks t.pipe chan ∨ Owes q chan pc)
    (debt : ∀ q chan, Waits t q chan → Waits s q chan → Owes q chan (s.pc p) →
      Owes q chan pc) : Awaited t := by
  have mine {q : Fin n} {chan : Chan} (owes : Owes q chan pc) : ∃ p, Owes q chan (t.pc p) :=
    ⟨p, by rwa [there, update_self]⟩
  intro q chan waits
  rcases old q chan waits with before | blocks
  · rcases awaited q chan before with blocks | ⟨r, owes⟩
    · rcases reason q chan waits before blocks with blocks | owes
      · exact .inl blocks
      · exact .inr (mine owes)
    · by_cases here : r = p
      · subst here
        exact .inr (mine (debt q chan waits before owes))
      · exact .inr ⟨r, by rwa [there, update_of_ne here]⟩
  · exact .inl blocks

/-- The process does not go to sleep in the step. -/
theorem waits_before {p q : Fin n} {pc : Pc} {chan : Chan} (there : t.pc = update s.pc p pc)
    (asleep : ∀ q, t.asleep q = true → s.asleep q = true) (up : drowsesOn chan pc = false)
    (up' : pc.sleepsOn chan = false) (waits : Waits t q chan) : q ≠ p ∧ Waits s q chan := by
  unfold Waits at waits
  rw [there] at waits
  by_cases here : q = p
  · subst here
    rw [update_self, up, up'] at waits
    simp at waits
  · rw [update_of_ne here] at waits
    refine ⟨here, ?_⟩
    rcases waits with drowses | ⟨sleeps, state⟩
    · exact .inl drowses
    · exact .inr ⟨sleeps, asleep q state⟩

/-- The common case: the pipe is as before and the process is awake after the step. -/
theorem Inv.awake (inv : Inv s) (mutual_ : Mutual t) {p : Fin n} {pc : Pc}
    (there : t.pc = update s.pc p pc) (asleep : ∀ q, t.asleep q = true → s.asleep q = true)
    (pipe : t.pipe = s.pipe) (up : ∀ chan, drowsesOn chan pc = false ∧ pc.sleepsOn chan = false)
    (knows : Knows s.pipe pc)
    (debt : ∀ q chan, q ≠ p → Waits t q chan → Waits s q chan → Owes q chan (s.pc p) →
      Owes q chan pc) : Inv t := by
  refine ⟨mutual_, awaited_move inv.awaited there ?_ ?_ ?_,
    knows_move inv.knows there (by rwa [pipe]) (.inl pipe)⟩
  · intro q chan waits
    exact .inl (waits_before there asleep (up chan).1 (up chan).2 waits).2
  · intro q chan _ _ blocks
    rw [pipe]
    exact .inl blocks
  · intro q chan waits
    exact debt q chan (waits_before there asleep (up chan).1 (up chan).2 waits).1 waits

/-- As there, of a process that owes nobody a wakeup. -/
theorem Inv.settled (inv : Inv s) (mutual_ : Mutual t) {p : Fin n} {pc : Pc}
    (there : t.pc = update s.pc p pc) (asleep : t.asleep = s.asleep) (pipe : t.pipe = s.pipe)
    (up : ∀ chan, drowsesOn chan pc = false ∧ pc.sleepsOn chan = false) (knows : Knows s.pipe pc)
    (settled : ∀ (q : Fin n) chan, ¬ Owes q chan (s.pc p)) : Inv t :=
  inv.awake mutual_ there (fun _ h => asleep ▸ h) pipe up knows
    fun q chan _ _ _ owes => absurd owes (settled q chan)

/-- The process with the lock, or one that takes it, changes the pipe. -/
theorem Inv.change (inv : Inv s) (mutual_ : Mutual t) {p : Fin n} {pc : Pc}
    (there : t.pc = update s.pc p pc) (asleep : t.asleep = s.asleep)
    (up : ∀ chan, drowsesOn chan pc = false ∧ pc.sleepsOn chan = false) (knows : Knows t.pipe pc)
    (alone : ∀ q, q ≠ p → (s.pc q).holds = false)
    (reason : ∀ (q : Fin n) chan, Blocks s.pipe chan → Blocks t.pipe chan ∨ Owes q chan pc)
    (debt : ∀ (q : Fin n) chan, Owes q chan (s.pc p) → Owes q chan pc) : Inv t := by
  refine ⟨mutual_, awaited_move inv.awaited there ?_ (fun q chan _ _ => reason q chan)
    (fun q chan _ _ => debt q chan), knows_move inv.knows there knows (.inr alone)⟩
  intro q chan waits
  exact .inl (waits_before there (fun q h => asleep ▸ h) (up chan).1 (up chan).2 waits).2

/-- A process goes to sleep with a reason. -/
theorem Inv.sleeps (inv : Inv s) (mutual_ : Mutual t) {p : Fin n} {chan : Chan} {back : Back}
    (there : t.pc = update s.pc p (.drowsy chan back)) (asleep : t.asleep = s.asleep)
    (pipe : t.pipe = s.pipe) (blocks : Blocks s.pipe chan)
    (knows : Knows s.pipe (.drowsy chan back))
    (settled : ∀ (q : Fin n) c, ¬ Owes q c (s.pc p)) : Inv t := by
  refine ⟨mutual_, awaited_move inv.awaited there ?_ ?_ ?_,
    knows_move inv.knows there (by rwa [pipe]) (.inl pipe)⟩
  · intro q c waits
    unfold Waits at waits
    rw [there, asleep] at waits
    by_cases here : q = p
    · subst here
      simp only [update_self, drowsesOn, Pc.sleepsOn, decide_eq_true_eq, Bool.false_eq_true,
        false_and, or_false] at waits
      subst waits
      exact .inr (pipe ▸ blocks)
    · rw [update_of_ne here] at waits
      exact .inl waits
  · intro q c _ _ reason
    exact .inl (pipe ▸ reason)
  · intro q c _ _ owes
    exact absurd owes (settled q c)

theorem resume_knows {pi : Pipe} {chan : Chan} {back : Back}
    (slept : Knows pi (.sleeping chan back)) : Knows pi back.resume := by
  cases back with
  | writing w =>
    have same : w.announced = w.count := slept
    exact ⟨same.le, fun less => absurd less (by omega)⟩
  | reading count => trivial

theorem resume_up (back : Back) (chan : Chan) :
    drowsesOn chan back.resume = false ∧ back.resume.sleepsOn chan = false := by
  cases back <;> exact ⟨rfl, rfl⟩

/-- Nobody has the lock but the process that takes a step with it. -/
theorem others_free (mutual_ : Mutual s) {p : Fin n} (holds : (s.pc p).holds = true) :
    ∀ q, q ≠ p → (s.pc q).holds = false := by
  intro q other
  by_contra also
  exact other (mutual_.alone injective_id holds (by simpa using also))

/-- The process in `wakeup` comes to the slot of another one. -/
theorem Inv.rouses (inv : Inv s) {p k : Fin n} {chan : Chan} {after : After}
    (mutual_ : Mutual ((s.rouse k chan).goTo p (.waking chan (k + 1) after)))
    (at_ : s.pc p = .waking chan k after) (other : k ≠ p) (unlocked : (s.pc k).drowses = false) :
    Inv ((s.rouse k chan).goTo p (.waking chan (k + 1) after)) := by
  have knows := inv.knows p
  rw [at_] at knows
  have fewer (q : Fin n) (h : (s.rouse k chan).asleep q = true) : s.asleep q = true := by
    by_cases here : q = k
    · subst here
      simp only [State.rouse, update_self, Bool.and_eq_true] at h
      exact h.1
    · simpa only [State.rouse, update_of_ne here] using h
  refine inv.awake mutual_ rfl fewer rfl (fun _ => ⟨rfl, rfl⟩) (by cases after <;> exact knows) ?_
  intro q c _ waits _ owes
  rw [at_] at owes
  obtain ⟨rfl, past⟩ := owes
  -- the one just roused waits no more
  have rest : q ≠ k := by
    rintro rfl
    unfold Waits at waits
    simp only [State.goTo, State.rouse, update_of_ne other, update_self] at waits
    rcases waits with drowses | ⟨sleeps, awake⟩
    · generalize s.pc q = pc at unlocked drowses
      cases pc <;> simp_all [drowsesOn, Pc.drowses]
    · simp [sleeps] at awake
  have : (q : Nat) ≠ k := fun same => rest (Fin.ext same)
  exact ⟨rfl, by omega⟩

/-- A process that decided to sleep is asleep. -/
theorem Inv.falls (inv : Inv s) {p : Fin n} {chan : Chan} {back : Back}
    (mutual_ : Mutual { s.goTo p (.sleeping chan back) with asleep := update s.asleep p true })
    (at_ : s.pc p = .drowsy chan back) :
    Inv { s.goTo p (.sleeping chan back) with asleep := update s.asleep p true } := by
  have knows := inv.knows p
  rw [at_] at knows
  refine ⟨mutual_, awaited_move inv.awaited rfl ?_ (fun q c _ _ blocks => .inl blocks) ?_,
    knows_move inv.knows rfl (by cases back <;> exact knows) (.inl rfl)⟩
  · intro q c waits
    left
    unfold Waits at waits ⊢
    by_cases here : q = p
    · subst here
      left
      simpa [State.goTo, drowsesOn, Pc.sleepsOn, at_] using waits
    · simpa only [State.goTo, update_of_ne here] using waits
  · intro q c _ _ owes
    rw [at_] at owes
    cases owes

theorem Inv.kill (inv : Inv s) {p : Fin n}
    (mutual_ : Mutual { s with
      killed := update s.killed p true, asleep := update s.asleep p false }) :
    Inv { s with killed := update s.killed p true, asleep := update s.asleep p false } := by
  have there : s.pc = update s.pc p (s.pc p) := (update_eq_self p s.pc).symm
  refine ⟨mutual_, awaited_move inv.awaited there ?_ (fun q c _ _ blocks => .inl blocks)
    (fun q c _ _ owes => owes), inv.knows⟩
  intro q c waits
  left
  rcases waits with drowses | ⟨sleeps, state⟩
  · exact .inl drowses
  · right
    refine ⟨sleeps, ?_⟩
    by_cases here : q = p
    · subst here
      simp at state
    · simpa only [update_of_ne here] using state

/-- A process that owes nobody a wakeup takes the lock. -/
theorem Inv.acquires (inv : Inv s) {p : Fin n} {pc : Pc}
    (mutual_ : Mutual { s.goTo p pc with lock := some p }) (free : s.lock = none)
    (up : ∀ chan, drowsesOn chan pc = false ∧ pc.sleepsOn chan = false)
    (knows : Knows s.pipe pc) : Inv { s.goTo p pc with lock := some p } := by
  refine inv.settled mutual_ rfl rfl rfl up knows fun q chan owes => ?_
  have idle := inv.mutual_.idle free p
  rw [owes_holds owes] at idle
  cases idle

theorem Inv.closes (inv : Inv s) {p : Fin n} {writable : Bool}
    (mutual_ : Mutual { s.goTo p (.waking (if writable then .nread else .nwrite) 0 .closed) with
      pipe := s.pipe.close writable, lock := some p })
    (free : s.lock = none) (at_ : s.pc p = .idle) :
    Inv { s.goTo p (.waking (if writable then .nread else .nwrite) 0 .closed) with
      pipe := s.pipe.close writable, lock := some p } := by
  refine inv.change mutual_ rfl rfl (fun _ => ⟨rfl, rfl⟩) trivial
    (fun q _ => inv.mutual_.idle free q) ?_ ?_
  · intro q chan blocks
    cases writable <;> cases chan
    · exact .inl blocks
    · exact .inr ⟨rfl, Nat.zero_le _⟩
    · exact .inr ⟨rfl, Nat.zero_le _⟩
    · exact .inl blocks
  · intro q chan owes
    rw [at_] at owes
    cases owes

/-- A process begins to wake up on the one channel on which it may owe a wakeup. -/
theorem Inv.wakes (inv : Inv s) {p : Fin n} {chan : Chan} {after : After}
    (mutual_ : Mutual (s.goTo p (.waking chan 0 after)))
    (knows : Knows s.pipe (.waking chan 0 after))
    (only : ∀ (q : Fin n) c, Owes q c (s.pc p) → c = chan) :
    Inv (s.goTo p (.waking chan 0 after)) := by
  refine inv.awake mutual_ rfl (fun _ h => h) rfl (fun _ => ⟨rfl, rfl⟩) knows ?_
  intro q c _ _ _ owes
  exact ⟨(only q c owes).symm, Nat.zero_le _⟩

/-- A writer gives up, when no reader waits for bytes that it has not announced. -/
theorem Inv.gaveUp (inv : Inv s) {p : Fin n} {w : Write} {copy : Bool}
    (fine : ¬ Strands s (.go p copy)) (mutual_ : Mutual (s.finish p w (-1)))
    (at_ : s.pc p = .writing w) (left : w.count < w.bytes.length)
    (why : s.pipe.readopen = false ∨ s.killed p = true) : Inv (s.finish p w (-1)) := by
  have knows := inv.knows p
  rw [at_] at knows
  refine inv.awake mutual_ rfl (fun _ h => h) rfl (fun _ => ⟨rfl, rfl⟩) trivial ?_
  rintro q chan - - waits owes
  rw [at_] at owes
  obtain ⟨rfl, unannounced⟩ := owes
  rcases why with closed | killed
  · exact absurd (knows.2 unannounced) (by simp [closed])
  · exact absurd ⟨killed, by rw [at_]; simp [Unannounced, left, unannounced], q, waits⟩ fine

theorem Inv.stores (inv : Inv s) {p : Fin n} {w : Write} {ch : Byte}
    (mutual_ : Mutual { s.goTo p (.writing { w with count := w.count + 1 }) with
      pipe := s.pipe.store ch, stored := s.stored ++ [ch] })
    (at_ : s.pc p = .writing w) (opened : s.pipe.readopen = true) (room : ¬ s.pipe.full) :
    Inv { s.goTo p (.writing { w with count := w.count + 1 }) with
      pipe := s.pipe.store ch, stored := s.stored ++ [ch] } := by
  have knows := inv.knows p
  rw [at_] at knows
  have alone := others_free inv.mutual_ (p := p) (by rw [at_]; rfl)
  refine inv.change mutual_ rfl rfl (fun _ => ⟨rfl, rfl⟩)
    ⟨Nat.le_succ_of_le knows.1, fun _ => opened⟩ alone ?_ ?_
  · intro q chan blocks
    cases chan with
    | nread => exact .inr ⟨rfl, Nat.lt_succ_of_le knows.1⟩
    | nwrite => exact absurd blocks.1 room
  · intro q chan owes
    rw [at_] at owes
    exact ⟨owes.1, Nat.lt_succ_of_lt owes.2⟩

/-- A reader takes a byte out of the pipe, and owes the writers a wakeup from there on. -/
theorem Inv.takesOut (inv : Inv s) (mutual_ : Mutual t) {p : Fin n} {count i : Nat} {pc : Pc}
    (there : t.pc = update s.pc p pc) (asleep : t.asleep = s.asleep)
    (at_ : s.pc p = .copying count i) (some : ¬ s.pipe.empty)
    (up : ∀ chan, drowsesOn chan pc = false ∧ pc.sleepsOn chan = false)
    (knows : Knows t.pipe pc) (owing : ∀ q : Fin n, Owes q .nwrite pc) : Inv t := by
  have alone := others_free inv.mutual_ (p := p) (by rw [at_]; rfl)
  refine inv.change mutual_ there asleep up knows alone ?_ ?_
  · intro q chan blocks
    cases chan with
    | nread => exact absurd blocks.1 some
    | nwrite => exact .inr (owing q)
  · intro q chan owes
    rw [at_] at owes
    exact owes.1 ▸ owing q

/-- The process in `wakeup` comes to its own slot. -/
theorem Inv.skips (inv : Inv s) {p : Fin n} {chan : Chan} {after : After}
    (mutual_ : Mutual (s.goTo p (.waking chan (p + 1) after)))
    (at_ : s.pc p = .waking chan p after) : Inv (s.goTo p (.waking chan (p + 1) after)) := by
  have knows := inv.knows p
  rw [at_] at knows
  refine inv.awake mutual_ rfl (fun _ h => h) rfl (fun _ => ⟨rfl, rfl⟩)
    (by cases after <;> exact knows) ?_
  intro q c other _ _ owes
  rw [at_] at owes
  have : (p : Nat) ≠ q := fun same => other (Fin.ext same.symm)
  exact ⟨owes.1, by have := owes.2; omega⟩

/-- The process goes on after `wakeup` has passed all slots. -/
theorem Inv.resumes (inv : Inv s) {p : Fin n} {chan : Chan} {k : Nat} {after : After}
    (mutual_ : Mutual (resume s p after)) (at_ : s.pc p = .waking chan k after) (past : n ≤ k) :
    Inv (resume s p after) := by
  have knows := inv.knows p
  rw [at_] at knows
  have settled (q : Fin n) (c : Chan) : ¬ Owes q c (s.pc p) := by
    intro owes
    rw [at_] at owes
    have := owes.2
    omega
  cases after with
  | sleep w => exact inv.sleeps mutual_ rfl rfl rfl knows.2 knows.1 settled
  | wrote w => exact inv.settled mutual_ rfl rfl rfl (fun _ => ⟨rfl, rfl⟩) trivial settled
  | read i => exact inv.settled mutual_ rfl rfl rfl (fun _ => ⟨rfl, rfl⟩) trivial settled
  | closed => exact inv.settled mutual_ rfl rfl rfl (fun _ => ⟨rfl, rfl⟩) trivial settled

/-- A reader that has copied nothing owes no wakeup. -/
theorem owes_not_reading {p : Fin n} {count : Nat} (at_ : s.pc p = .reading count) (q : Fin n)
    (chan : Chan) : ¬ Owes q chan (s.pc p) := by
  intro owes
  rw [at_] at owes
  cases owes

theorem inv_step (inv : Inv s) (fine : ¬ Strands s e) (move : Move s e t) : Inv t := by
  have mutual_ := mutual_step inv.mutual_ move
  have up (chan : Chan) : false = false ∧ false = false := ⟨rfl, rfl⟩
  cases move with
  | @acquires p _ pc free call =>
    rcases call with ⟨-, bytes, -, rfl⟩ | ⟨-, count, -, rfl⟩ | ⟨copy, chan, back, -, at_, -, rfl⟩
    · exact inv.acquires mutual_ free up ⟨le_rfl, fun less => absurd less (lt_irrefl _)⟩
    · exact inv.acquires mutual_ free up trivial
    · have slept := inv.knows p
      rw [at_] at slept
      exact inv.acquires mutual_ free (resume_up back) (resume_knows slept)
  | closes free at_ => exact inv.closes mutual_ free at_
  | ends at_ => exact inv.wakes mutual_ trivial fun q c owes => by rw [at_] at owes; exact owes.1
  | gaveUp at_ left why => exact inv.gaveUp fine mutual_ at_ left why
  | full at_ left opened full =>
    exact inv.wakes mutual_ ⟨rfl, full, opened⟩ fun q c owes => by rw [at_] at owes; exact owes.1
  | stores at_ byte opened room => exact inv.stores mutual_ at_ opened room
  | readKilled at_ => exact inv.settled mutual_ rfl rfl rfl up trivial (owes_not_reading at_)
  | readSleeps at_ none opened =>
    exact inv.sleeps mutual_ rfl rfl rfl ⟨none, opened⟩ trivial (owes_not_reading at_)
  | readStarts at_ => exact inv.settled mutual_ rfl rfl rfl up trivial (owes_not_reading at_)
  | readEnds at_ =>
    exact inv.wakes mutual_ trivial fun q c owes => by
      rw [at_] at owes
      exact owes.1
  | drops at_ some =>
    exact inv.takesOut mutual_ rfl rfl at_ some up trivial fun q => ⟨rfl, Nat.zero_le _⟩
  | removes at_ some =>
    exact inv.takesOut mutual_ rfl rfl at_ some up trivial fun q => ⟨rfl, Nat.succ_pos _⟩
  | skips at_ => exact inv.skips mutual_ at_
  | rouses at_ other unlocked => exact inv.rouses mutual_ at_ other unlocked
  | resumes at_ past => exact inv.resumes mutual_ at_ past
  | falls at_ => exact inv.falls mutual_ at_
  | kill unlocked => exact inv.kill mutual_

theorem Inv.sound (inv : Inv s) : Sound s := by
  intro free p chan sleeps state
  rcases inv.awaited p chan (.inr ⟨sleeps, state⟩) with blocks | ⟨q, owes⟩
  · exact blocks
  · have idle := inv.mutual_.idle free q
    rw [owes_holds owes] at idle
    cases idle

theorem inv_fresh (n : Nat) (data : Nat → Byte) : Inv (fresh n data) := by
  refine ⟨mutual_fresh n data, ?_, fun _ => trivial⟩
  intro q chan waits
  simp [Waits, fresh, drowsesOn, Pc.sleepsOn] at waits

/-- In a run without such a return of a killed writer, whenever the lock of the pipe is free nobody
sleeps on a channel without reason. -/
theorem sleepers_have_reason (n : Nat) (data : Nat → Byte) (es : List (Event n)) {s : State n}
    (fine : Meets step (fun s e => ¬ Strands s e) (fresh n data) es)
    (h : run step (fresh n data) es = .ok s) : Sound s := by
  have keep (s : State n) (e : Event n) (t : State n) (inv : Inv s) (fine : ¬ Strands s e)
      (h : step s e = .ok t) : Inv t := inv_step inv fine (step_moves h)
  exact (run_invariant keep (inv_fresh n data) fine h).sound

/-- A reader goes to sleep on the empty pipe, and a write of one byte wakes it up. -/
def woken (p q : Fin n) : List (Event n) :=
  [.piperead p 1, .go p true, .go p true, .pipewrite q [7], .go q true, .go q true, .go q true,
    .go q true, .go q true]

theorem sleepers_have_reason_woken : ∃ s, run step (fresh 2 fun _ => 0) (woken 0 1) = .ok s ∧
    s.lock = none ∧ s.stored = [7] ∧ Sound s := by
  have fine : Meets step (fun s e => ¬ Strands s e) (fresh 2 fun _ => 0) (woken 0 1) := by
    decide +kernel
  have ran : Outcomes.Yields (run step (fresh 2 fun _ => 0) (woken 0 1))
      fun s => s.lock = none ∧ s.stored = [7] := by decide +kernel
  obtain ⟨s, h, free, stored⟩ := ran
  exact ⟨s, h, free, stored, sleepers_have_reason 2 _ _ fine h⟩

/-- A reader sleeps, and a writer of two bytes is killed after the first of them. -/
def stranded (p q : Fin n) : List (Event n) :=
  [.piperead p 1, .go p true, .go p true, .pipewrite q [7, 8], .go q true, .kill q, .go q true]

theorem killed_writer_strands_reader :
    ∃ s, run step (fresh 2 fun _ => 0) (stranded 0 1) = .ok s ∧ ¬ Sound s := by
  have ran : Outcomes.Yields (run step (fresh 2 fun _ => 0) (stranded 0 1)) fun s =>
      s.lock = none ∧ (s.pc 0).sleepsOn .nread = true ∧ s.asleep 0 = true ∧ ¬ s.pipe.empty := by
    decide +kernel
  obtain ⟨s, h, free, sleeps, state, some⟩ := ran
  exact ⟨s, h, fun sound => some (sound free 0 .nread sleeps state).1⟩

end PipeWakeups
