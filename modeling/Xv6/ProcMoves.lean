import Xv6.SchedulerBlocks

/-!
# What one operation does to a slot

Inversion of every system call, interrupt and `RR_scheduler` switch, as the move
of a single slot between the process states. The MLFQ fields play no part, and
the blocks of `MLFQ_scheduler` before its dispatch move no slot.
-/

namespace ProcMoves

open ProcTable QueueStore FeedbackScheduler SchedulerRuns SchedulerBlocks

/-- The operations that call `wakeup`, and `kill`. -/
def Wakes : Event → Prop
  | .wakeup _ _ | .kill _ | .exit _ _ => True
  | _ => False

inductive Move (e : Event) (j : Slot) (p p' : Proc) : Prop
  | kept (state : p'.state = p.state) (context : p'.context = p.context)
  | woken (wakes : Wakes e) (before : p.state = .sleeping) (after : p'.state = .runnable)
      (context : p'.context = p.context)
  | yielded (call : e = .yield j) (before : p.state = .running) (alive : p.context ≠ .exit)
      (after : p'.state = .runnable) (context : p'.context = .yield)
  | slept (call : (∃ chan, e = .sleep j chan) ∨ ∃ delivered, e = .wait j delivered)
      (before : p.state = .running) (alive : p.context ≠ .exit)
      (after : p'.state = .sleeping) (context : p'.context = .sleep)
  | exited (call : ∃ status, e = .exit j status) (before : p.state = .running)
      (alive : p.context ≠ .exit) (after : p'.state = .zombie) (context : p'.context = .exit)
  | freed (call : ∃ i, e = .wait i true) (before : p.state = .zombie)
      (after : p'.state = .unused)
  | forked (call : ∃ i memory copied, e = .fork i memory copied) (before : p.state = .unused)
      (after : p'.state = .unused ∨ p'.state = .runnable ∧ p'.context = .forkret)
  | switched (call : e = .rr j) (before : p.state = .runnable) (after : p'.state = .running)
      (context : p'.context = p.context)

/-- No slot changes but by being woken. -/
def Rouses (t t' : Table) : Prop :=
  ∀ j, (t'.proc j).context = (t.proc j).context ∧
    ((t'.proc j).state = (t.proc j).state ∨
      (t.proc j).state = .sleeping ∧ (t'.proc j).state = .runnable)

theorem Rouses.trans {t t' t'' : Table} (h : Rouses t t') (h' : Rouses t' t'') :
    Rouses t t'' := by
  intro j
  refine ⟨(h' j).1.trans (h j).1, ?_⟩
  rcases (h j).2 with same | ⟨slept, awake⟩
  · rcases (h' j).2 with same' | ⟨slept, awake⟩
    · exact Or.inl (same'.trans same)
    · exact Or.inr ⟨same ▸ slept, awake⟩
  · rcases (h' j).2 with same' | ⟨slept', -⟩
    · exact Or.inr ⟨slept, same'.trans awake⟩
    · rw [awake] at slept'
      cases slept'

theorem Rouses.move {t t' : Table} {e : Event} (h : Rouses t t') (wakes : Wakes e) (j : Slot) :
    Move e j (t.proc j) (t'.proc j) := by
  rcases (h j).2 with same | ⟨slept, awake⟩
  · exact .kept same (h j).1
  · exact .woken wakes slept awake (h j).1

theorem wakeup_rouses (t : Table) (self : Option Slot) (chan : Option Chan) :
    Rouses t (wakeup t self chan) := by
  intro j
  simp only [wakeup]
  split
  · rename_i h
    exact ⟨rfl, Or.inr ⟨h.2.1, rfl⟩⟩
  · exact ⟨rfl, Or.inl rfl⟩

theorem reparent_rouses (t : Table) (i : Slot) : Rouses t (reparent t i) := by
  have moved : Rouses t { t with
      proc := fun j =>
        if (t.proc j).parent = some i then { t.proc j with parent := some initproc }
        else t.proc j } := by
    intro j
    by_cases h : (t.proc j).parent = some i <;> simp [h]
  simp only [reparent]
  split
  · exact moved.trans (wakeup_rouses _ _ _)
  · exact moved

theorem move_refl (e : Event) (j : Slot) (p : Proc) : Move e j p p := .kept rfl rfl

/-- An operation on slot `i` alone. -/
theorem move_set {t : Table} {e : Event} {i : Slot} {p : Proc} (own : Move e i (t.proc i) p)
    (j : Slot) : Move e j (t.proc j) ((t.set i p).proc j) := by
  by_cases h : j = i
  · subst h
    simpa using own
  · simpa [h] using move_refl e j (t.proc j)

theorem kill_move (k : Kernel) (pid : Int) (j : Slot) :
    Move (.kill pid) j (k.proc j) ((kill k.toTable pid).2.proc j) := by
  unfold kill
  cases (List.finRange nproc).find? fun j => (k.proc j).pid = pid with
  | none => exact move_refl _ _ _
  | some i =>
    refine move_set ?_ j
    simp only
    split
    · rename_i slept
      exact .woken trivial slept rfl rfl
    · exact .kept rfl rfl

theorem exit_move {k : Kernel} {i : Slot} {status : Int} (h : Executing k.toTable i)
    (j : Slot) : Move (.exit i status) j (k.proc j) ((exit k.toTable i status).proc j) := by
  have rouses := (reparent_rouses k.toTable i).trans
    (wakeup_rouses (reparent k.toTable i) (some i)
      (((reparent k.toTable i).proc i).parent.map .proc))
  by_cases hj : j = i
  · subst hj
    exact .exited ⟨status, rfl⟩ h.1 h.2 (by simp [exit]) (by simp [exit])
  · simpa [exit, hj] using rouses.move (e := .exit i status) trivial j

theorem fork_move (k : Kernel) (i : Slot) (memory copied : Bool) (j : Slot) :
    Move (.fork i memory copied) j (k.proc j) ((forkKernel k i memory copied).proc j) := by
  unfold forkKernel
  cases hu : unusedSlot k.toTable with
  | none => exact move_refl _ _ _
  | some n =>
    by_cases hj : j = n
    · subst hj
      refine .forked ⟨i, memory, copied, rfl⟩ (unusedSlot_state hu) ?_
      cases memory <;> cases copied <;> simp [fork, allocproc, hu, freeproc]
    · have others := (@fork_fresh k.toTable i n memory copied hu).2 j hj
      exact .kept (by simp [others]) (by simp [others])

theorem wait_move {k : Kernel} {i : Slot} {delivered : Bool} (h : Executing k.toTable i)
    (j : Slot) : Move (.wait i delivered) j (k.proc j) ((waitKernel k i delivered).proc j) := by
  unfold waitKernel
  cases hz : zombieChild k.toTable i with
  | none =>
    simp only [wait, hz]
    split
    · exact move_refl _ _ _
    · exact move_set (.slept (Or.inr ⟨delivered, rfl⟩) h.1 h.2 rfl rfl) j
  | some z =>
    cases delivered with
    | false => exact move_refl _ _ _
    | true =>
      simp only [wait_frees hz, if_true]
      exact move_set (.freed ⟨i, rfl⟩ (zombieChild_state hz).2 rfl) j

/-- Inversion of `kernelStep`, slot by slot. -/
theorem kernelStep_move (k : Kernel) (e : Event) (j : Slot) :
    Move e j (k.proc j) ((kernelStep k e).proc j) := by
  cases e with
  | iterate choose => exact move_refl _ _ _
  | rr i =>
    simp only [kernelStep, rrKernel]
    split
    · rename_i runnable
      have own : Move (.rr i) i (k.proc i) (swtchTo (k.proc i)) :=
        .switched rfl runnable rfl rfl
      exact move_set own j
    · exact move_refl _ _ _
  | yield i =>
    simp only [kernelStep]
    split
    · rename_i h
      exact move_set (.yielded rfl h.1 h.2 rfl rfl) j
    · exact move_refl _ _ _
  | sleep i chan =>
    simp only [kernelStep]
    split
    · rename_i h
      exact move_set (.slept (Or.inl ⟨chan, rfl⟩) h.1 h.2 rfl rfl) j
    · exact move_refl _ _ _
  | wakeup self chan =>
    exact (wakeup_rouses k.toTable self (some chan)).move (e := .wakeup self chan) trivial j
  | kill pid => exact kill_move k pid j
  | fork i memory copied =>
    simp only [kernelStep]
    split
    · exact fork_move k i memory copied j
    · exact move_refl _ _ _
  | exit i status =>
    simp only [kernelStep]
    split
    · rename_i h
      exact exit_move h.1 j
    · exact move_refl _ _ _
  | wait i delivered =>
    simp only [kernelStep]
    split
    · rename_i h
      exact wait_move h j
    · exact move_refl _ _ _
  | startMLFQ m n =>
    rw [kernelStep, start_proc]
    exact move_refl _ _ _
  | stopMLFQ =>
    rw [kernelStep, stop_proc]
    exact move_refl _ _ _
  | kalloc => exact move_refl _ _ _
  | kfree a =>
    simp only [kernelStep]
    split <;> exact move_refl _ _ _

/-- A slot that resumes in `exit` stays dead or empty. -/
theorem Move.exits {e : Event} {j : Slot} {p p' : Proc} (m : Move e j p p')
    (before : p.context = .exit → p.state = .zombie ∨ p.state = .unused)
    (h : p'.context = .exit) : p'.state = .zombie ∨ p'.state = .unused := by
  cases m with
  | kept state context =>
    rw [state]
    exact before (context ▸ h)
  | woken wakes slept after context =>
    rcases before (context ▸ h) with dead | empty <;> simp_all
  | yielded call before alive after context => simp [context] at h
  | slept call before alive after context => simp [context] at h
  | exited call before alive after => exact Or.inl after
  | freed call before after => exact Or.inr after
  | forked call before after =>
    rcases after with empty | ⟨-, context⟩
    · exact Or.inr empty
    · simp [context] at h
  | switched call runnable after context =>
    rcases before (context ▸ h) with dead | empty <;> simp_all

/-- A runnable slot changes only by a switch to it. -/
theorem Move.runnable {e : Event} {j : Slot} {p p' : Proc} (m : Move e j p p')
    (noSwitch : e ≠ .rr j) (before : p.state = .runnable) : p'.state = .runnable := by
  cases m <;> simp_all

/-- Only a switch makes a slot running. -/
theorem Move.running {e : Event} {j : Slot} {p p' : Proc} (m : Move e j p p')
    (noSwitch : e ≠ .rr j) (after : p'.state = .running) : p.state = .running := by
  cases m <;> simp_all

/-- A switch outside the MLFQ loop is to a process that was runnable. -/
theorem kernelStep_switches {k : Kernel} {e : Event} {i : Slot} {state : ProcState}
    (h : .dispatched i state ∈ (kernelStep k e).log) :
    .dispatched i state ∈ k.log ∨ state = .runnable := by
  by_cases other : ∀ choose, e ≠ .iterate choose
  · have effect := kernelStep_effect k .entry other
    generalize kernelStep k e = k' at h effect
    cases effect with
    | iterated => exact absurd rfl (other _)
    | returned => exact Or.inl h
    | quiet _ q =>
      rcases q.log with same | ⟨i', same⟩
      · exact Or.inl (same ▸ h)
      · rw [same, List.mem_cons, Mark.dispatched.injEq] at h
        exact h.symm.imp_right And.right
    | recycled j others fresh origin => exact Or.inl (by simpa using h)
    | started m n idle => exact Or.inl (by simpa [(start_idle m n idle).2.2.2.2] using h)
    | stopped running => exact Or.inl (by simpa [(stop_running running).2.2.2.2] using h)
    | lent => exact Or.inl h
    | repaid => exact Or.inl h
  · push Not at other
    obtain ⟨choose, rfl⟩ := other
    exact Or.inl h

/-- Nothing was switched to, no slot moved and the session is the same. -/
structure Unswitched (k k' : Kernel) : Prop extends SameSettings k k' where
  log : ∃ marks, (∀ mark ∈ marks, byBlock mark = true) ∧ k'.log = marks ++ k.log

theorem Unswitched.refl (k : Kernel) : Unswitched k k :=
  ⟨⟨rfl, rfl, rfl, fun _ => rfl, fun _ => rfl⟩, [], by simp, rfl⟩

theorem Unswitched.trans {k k' k'' : Kernel} (h : Unswitched k k') (h' : Unswitched k' k'') :
    Unswitched k k'' := by
  obtain ⟨⟨m, n, flag, state, context⟩, marks, own, log⟩ := h
  obtain ⟨⟨m', n', flag', state', context'⟩, marks', own', log'⟩ := h'
  refine ⟨⟨m'.trans m, n'.trans n, flag'.trans flag, fun j => (state' j).trans (state j),
    fun j => (context' j).trans (context j)⟩, marks' ++ marks, ?_, ?_⟩
  · intro mark hm
    exact (List.mem_append.mp hm).elim (own' mark) (own mark)
  · rw [log', log, List.append_assoc]

/-- No switch is among the new marks. -/
theorem Unswitched.switches {k k' : Kernel} (h : Unswitched k k') {i : Slot}
    {state : ProcState} (hm : .dispatched i state ∈ k'.log) : .dispatched i state ∈ k.log := by
  obtain ⟨marks, own, log⟩ := h.log
  rw [log] at hm
  rcases List.mem_append.mp hm with new | old
  · cases own _ new
  · exact old

theorem charge_unswitched {k k' : Kernel} {i : Slot} {b : Bool} (h : ChargeOutcome k i k' b) :
    Unswitched k k' := by
  refine ⟨charge_settings h, ?_⟩
  cases h with
  | within l => exact ⟨[.charged i l], by simp [byBlock], rfl⟩
  | spent l => exact ⟨[.spent i l, .charged i l], by simp [byBlock], rfl⟩
  | demoted l => exact ⟨[.demoted i l, .charged i l], by simp [byBlock], rfl⟩

theorem visit_unswitched {k k' : Kernel} {last : Level} {i : Slot}
    (h : VisitOutcome k last i k') : Unswitched k k' := by
  refine ⟨visit_settings h, ?_⟩
  cases h with
  | skipped => exact ⟨[], by simp, rfl⟩
  | aged => exact ⟨[.aged i last], by simp [byBlock], rfl⟩
  | boosted => exact ⟨[.boosted i last, .aged i last], by simp [byBlock], rfl⟩

theorem admit_unswitched {k k' : Kernel} {i : Slot} (h : AdmitOutcome k i k') :
    Unswitched k k' := by
  refine ⟨admit_settings h, ?_⟩
  cases h with
  | idle => exact ⟨[], by simp, rfl⟩
  | known => exact ⟨[.scanned i], by simp [byBlock], rfl⟩
  | admitted => exact ⟨[.scanned i, .admitted i], by simp [byBlock], rfl⟩

theorem tickBlock_unswitched {k k' : Kernel} {p : Option Slot} {b : Bool}
    (h : tickBlock k p = .ok (k', b)) : Unswitched k k' := by
  rcases tickBlock_outcome h with ⟨rfl, -, -⟩ | ⟨i, -, -, hc⟩
  · exact Unswitched.refl _
  · exact charge_unswitched hc

theorem ruleFive_unswitched {k k' : Kernel} (h : ruleFive k = .ok k') : Unswitched k k' := by
  refine ruleFive_keeps (I := Unswitched k) ?_ ?_ (Unswitched.refl k) h
  · intro r last i r' hr hv
    exact hr.trans (visit_unswitched hv)
  · intro r hr
    refine hr.trans ⟨⟨rfl, rfl, rfl, fun _ => rfl, fun _ => rfl⟩, [.passed], ?_, rfl⟩
    simp [byBlock]

theorem admissionScan_unswitched {k k' : Kernel} (h : admissionScan k = .ok k') :
    Unswitched k k' :=
  admissionScan_keeps (fun _ _ _ hr ha => hr.trans (admit_unswitched ha))
    (Unswitched.refl k) h

theorem candidate_runnable {k : Kernel} {i : Slot} (h : i ∈ procsWithHighestPriority k) :
    (k.proc i).state = .runnable := by
  simp only [procsWithHighestPriority, List.mem_filter, decide_eq_true_eq] at h
  exact h.2.1

/-- With `rr_index` in range the selection is one of the candidates. -/
theorem select_candidate {k : Kernel} {stale : Option Slot} {rrIndex : Nat} {i : Slot}
    (inRange : 1 < (procsWithHighestPriority k).length →
      rrIndex < (procsWithHighestPriority k).length)
    (h : (select stale k rrIndex).1 = some i) : i ∈ procsWithHighestPriority k := by
  simp only [select] at h
  split at h
  · rename_i several
    simp only [inRange several, ↓reduceDIte, Option.some.injEq] at h
    exact h ▸ List.get_mem _ _
  · exact List.mem_of_head? h

end ProcMoves
