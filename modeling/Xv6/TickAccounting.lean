import Xv6.LevelBounds
import Xv6.Lib.Histories

/-!
# What the quantum counters count

The counters of a process are tallies of the history. `ticks[priority]` counts
the charges since the quantum of the process last started, and `ticks` is zero
at every other level; a quantum starts when the slot is handed out, when the
process changes level and when a quantum runs out where the process stays.
-/

namespace TickAccounting

open ProcTable QueueStore FeedbackScheduler SchedulerRuns SchedulerBlocks LevelBounds
open EventRuns Outcomes Histories

/-- The marks at which a quantum of process `i` starts. -/
def restarts (i : Slot) : Mark → Bool
  | .reset j => j = i
  | .spent j _ => j = i
  | .demoted j _ => j = i
  | .boosted j _ => j = i
  | _ => false

def charges (i : Slot) : Mark → Bool
  | .charged j _ => j = i
  | _ => false

/-- The ticks that process `i` has been charged in its present quantum. -/
def quantumTicks (i : Slot) (log : List Mark) : Nat := tally (restarts i) (charges i) log

theorem quantumTicks_cons (i : Slot) (mark : Mark) (log : List Mark) :
    quantumTicks i (mark :: log) =
      if restarts i mark then 0
      else quantumTicks i log + if charges i mark then 1 else 0 := tally_cons

/-- `ticks` of a process that has been charged `c` times in its quantum. -/
structure Reads (info : MLFQInfoReport) (c : Nat) : Prop where
  ticks : ∀ l, info.ticks l = if l.val = info.priority then c else 0
  quantum : c < 2 * (info.priority + 1)

theorem reads_zero : Reads .zero 0 :=
  ⟨fun l => by simp [MLFQInfoReport.zero], by decide⟩

variable {info : MLFQInfoReport} {c : Nat} {l : Level}

theorem Reads.at_level (r : Reads info c) (level : info.priority = l.val) :
    info.ticks l = c := by
  rw [r.ticks l, if_pos level.symm]

theorem Reads.elsewhere (r : Reads info c) (level : info.priority = l.val) {l' : Level}
    (h : l' ≠ l) : info.ticks l' = 0 := by
  rw [r.ticks l', if_neg]
  intro heq
  exact h (Fin.ext (heq.trans level))

theorem Reads.tick (r : Reads info c) (level : info.priority = l.val)
    (room : c + 1 < 2 * (l.val + 1)) : Reads (tick info l) (c + 1) := by
  refine ⟨fun l' => ?_, by simpa [SchedulerBlocks.tick, level] using room⟩
  by_cases h : l' = l
  · subst h
    simp [SchedulerBlocks.tick, level, r.at_level level]
  · have hv : l'.val ≠ l.val := fun heq => h (Fin.ext heq)
    simp [SchedulerBlocks.tick, level, h, hv, r.elsewhere level h]

/-- A quantum that starts again leaves no tick at any level. -/
theorem Reads.cleared (zero : ∀ l, info.ticks l = 0) : Reads info 0 :=
  ⟨fun l => by simp [zero l], by omega⟩

theorem restart_clear (r : Reads info c) (level : info.priority = l.val) (l' : Level) :
    (restart (SchedulerBlocks.tick info l) l).ticks l' = 0 := by
  by_cases h : l' = l
  · simp [restart, h]
  · simp [restart, SchedulerBlocks.tick, h, r.elsewhere level h]

theorem ascend_clear (r : Reads info c) (level : info.priority = l.val) (l' : Level) :
    (ascend (age info l) l).ticks l' = 0 := by
  by_cases h₀ : l' = 0
  · simp [ascend, h₀]
  · by_cases h : l' = l
    · subst h
      simp [ascend, h₀]
    · simp [ascend, age, h₀, h, r.elsewhere level h]

def Metered (k : Kernel) : Prop := ∀ i, Reads (k.info i) (quantumTicks i k.log)

/-- A step that changes process `i` and notes marks about it alone. -/
theorem Metered.update {k k' : Kernel} (h : Metered k) (i : Slot) (info : MLFQInfoReport)
    (hinfo : k'.info = Function.update k.info i info)
    (own : Reads info (quantumTicks i k'.log))
    (others : ∀ j, i ≠ j → quantumTicks j k'.log = quantumTicks j k.log) : Metered k' := by
  intro j
  rw [hinfo]
  by_cases hj : i = j
  · subst hj
    simpa using own
  · rw [Function.update_of_ne (Ne.symm hj), others j hj]
    exact h j

theorem charge_metered {k k' : Kernel} {i : Slot} {b : Bool} (h : Metered k)
    (ho : ChargeOutcome k i k' b) : Metered k' := by
  cases ho with
  | within l level room =>
    rw [(h i).at_level level] at room
    refine h.update i (tick (k.info i) l) (setInfo_info _ _ _) ?_ fun j hj => ?_
    · simpa [quantumTicks_cons, restarts, charges] using (h i).tick level room
    · simp [quantumTicks_cons, restarts, charges, hj]
  | spent l level =>
    refine h.update i (restart (tick (k.info i) l) l) (by simp) ?_ fun j hj => ?_
    · simpa [quantumTicks_cons, restarts] using Reads.cleared (restart_clear (h i) level)
    · simp [quantumTicks_cons, restarts, charges, hj]
  | demoted l lower s₁ s₂ level =>
    refine h.update i (descend (tick (k.info i) l) l) (by simp) ?_ fun j hj => ?_
    · have clear : ∀ l', (descend (tick (k.info i) l) l).ticks l' = 0 :=
        restart_clear (h i) level
      simpa [quantumTicks_cons, restarts] using Reads.cleared clear
    · simp [quantumTicks_cons, restarts, charges, hj]

theorem visit_metered {k k' : Kernel} {last : Level} {i : Slot} (h : Metered k)
    (ho : VisitOutcome k last i k') : Metered k' := by
  cases ho with
  | skipped => exact h
  | aged =>
    refine h.update i (age (k.info i) last) (by simp) ?_ fun j _ => ?_
    · have own : Reads (age (k.info i) last) (quantumTicks i k.log) := ⟨(h i).ticks, (h i).quantum⟩
      simpa [quantumTicks_cons, restarts, charges] using own
    · simp [quantumTicks_cons, restarts, charges]
  | boosted s₁ s₂ bottom level =>
    refine h.update i (ascend (age (k.info i) last) last) (by simp) ?_ fun j hj => ?_
    · simpa [quantumTicks_cons, restarts] using Reads.cleared (ascend_clear (h i) level)
    · simp [quantumTicks_cons, restarts, charges, hj]

theorem admit_metered {k k' : Kernel} {i : Slot} (h : Metered k) (ho : AdmitOutcome k i k') :
    Metered k' := by
  cases ho with
  | idle => exact h
  | known => exact fun j => by simpa [quantumTicks_cons, restarts, charges] using h j
  | admitted s₁ =>
    refine h.update i { k.info i with addedToMLFQ := true } (by simp) ?_ fun j _ => ?_
    · have own : Reads { k.info i with addedToMLFQ := true } (quantumTicks i k.log) :=
        ⟨(h i).ticks, (h i).quantum⟩
      simpa [quantumTicks_cons, restarts, charges] using own
    · simp [quantumTicks_cons, restarts, charges]

theorem quantumTicks_dispatched (i j : Slot) (state : ProcState) (log : List Mark) :
    quantumTicks i (.dispatched j state :: log) = quantumTicks i log := by
  simp [quantumTicks_cons, restarts, charges]

theorem step_metered {s s' : Machine} {e : Event} (hs : Metered s.kernel)
    (h : step s e = .ok s') : Metered s'.kernel := by
  refine step_keeps (fun k i k' b h => charge_metered h) (fun k last i k' h => visit_metered h)
    ?pass (fun k i k' h => admit_metered h) ?switch ?quiet ?recycle ?start ?stop
    (fun k a pages h _ => h) (fun k a h _ _ => h) hs h
  case pass => exact fun k h i => by simpa [quantumTicks_cons, restarts, charges] using h i
  case switch =>
    intro k p h i
    rw [dispatch_info, dispatch_reads (quantumTicks_dispatched i)]
    exact h i
  case quiet =>
    intro k k' h q i
    rw [q.info, quiet_reads (quantumTicks_dispatched i) q]
    exact h i
  case recycle =>
    intro k k' j h r i
    by_cases hi : i = j
    · subst hi
      rw [r.fresh, r.log]
      simpa [quantumTicks_cons, restarts] using reads_zero
    · rw [r.other_info hi, r.log]
      simpa [quantumTicks_cons, restarts, charges, Ne.symm hi] using h i
  case start =>
    intro k m n h flag i
    rw [start_info, (start_idle m n flag).2.2.2.2]
    simpa [quantumTicks_cons, restarts, charges] using h i
  case stop =>
    intro k h flag i
    rw [stop_info, (stop_running flag).2.2.2.2]
    simpa [quantumTicks_cons, restarts, charges] using h i

/-- `ticks` is the tally of the quantum in every reachable state. -/
theorem reachable_metered {s : Machine} (h : Reachable s) : Metered s.kernel := by
  refine h.induct (I := fun s => Metered s.kernel) ?_ fun _ _ _ hs ht => step_metered hs ht
  intro pages _ i
  rw [boot_info]
  exact reads_zero

/-- The event is an iteration that charges process `i`: the scheduler has
regained control from it and finds it runnable or running. -/
def Charged (s : Machine) (e : Event) (i : Slot) : Prop :=
  (∃ choose, e = .iterate choose) ∧ s.kernel.mlfqFlag = true ∧ s.frame.p = some i ∧
    ((s.kernel.proc i).state = .runnable ∨ (s.kernel.proc i).state = .running)

/-- The charge is the last tick of a quantum above the bottom level. -/
def Expires (s : Machine) (e : Event) (i : Slot) : Prop :=
  Charged s e i ∧
    quantumTicks i s.kernel.log + 1 = 2 * ((s.kernel.info i).priority + 1) ∧
    ((s.kernel.info i).priority : Int) < s.kernel.m - 1

/-- The three ways in which the level of a process changes. -/
inductive LevelChange (s : Machine) (e : Event) (i : Slot) (t : Machine) : Prop
  | demoted (expires : Expires s e i) (l lower : Level) (s₁ : Store)
      (upper : (s.kernel.info i).priority = l.val)
      (level : (t.kernel.info i).priority = lower.val) (below : lower.val = l.val + 1)
      (enque : mlfqEnque s.kernel.store lower i = .ok s₁)
      (delete : mlfqDelete s₁ l i = .ok t.kernel.store)
  | boosted (marks : List Mark) (iterates : ∃ choose, e = .iterate choose)
      (bottom : ((s.kernel.info i).priority : Int) = s.kernel.m - 1)
      (level : (t.kernel.info i).priority = 0)
      (log : t.kernel.log = marks ++ s.kernel.log) (mark : ∃ l, .boosted i l ∈ marks)
  | recycled (level : (t.kernel.info i).priority = 0)
      (log : t.kernel.log = .reset i :: s.kernel.log)

/-- The rest of an iteration, seen from process `i` after the tick block. -/
def Settled (k : Kernel) (i : Slot) (r : Kernel) : Prop :=
  r.m = k.m ∧ ∃ marks, r.log = marks ++ k.log ∧
    ((r.info i).priority = (k.info i).priority ∨
      ((k.info i).priority : Int) = k.m - 1 ∧ (r.info i).priority = 0 ∧
        ∃ l, .boosted i l ∈ marks)

theorem Settled.refl (k : Kernel) (i : Slot) : Settled k i k := ⟨rfl, [], rfl, Or.inl rfl⟩

/-- A step that notes one more mark and leaves the level of `i` alone. -/
theorem Settled.note {k r r' : Kernel} {i : Slot} (h : Settled k i r) {mark : Mark}
    (m : r'.m = r.m) (log : r'.log = mark :: r.log)
    (level : (r'.info i).priority = (r.info i).priority) : Settled k i r' := by
  obtain ⟨hm, marks, hlog, hl⟩ := h
  refine ⟨m.trans hm, mark :: marks, by rw [log, hlog, List.cons_append], ?_⟩
  rcases hl with same | ⟨bottom, top, l, hb⟩
  · exact Or.inl (level.trans same)
  · exact Or.inr ⟨bottom, level.trans top, l, List.mem_cons_of_mem _ hb⟩

theorem visit_settled {k r r' : Kernel} {last : Level} {i j : Slot} (h : Settled k i r)
    (ho : VisitOutcome r last j r') : Settled k i r' := by
  cases ho with
  | skipped => exact h
  | aged =>
    refine h.note rfl rfl ?_
    simpa using update_reads (·.priority) (by simp [age]) i
  | boosted s₁ s₂ bottom level =>
    by_cases hj : i = j
    · subst hj
      obtain ⟨hm, marks, hlog, hl⟩ := h
      refine ⟨hm, .boosted i last :: .aged i last :: marks, by simp [hlog],
        Or.inr ⟨?_, ?_, last, by simp⟩⟩
      · rcases hl with same | ⟨was, -, -⟩
        · rw [← same, level, bottom, hm]
        · exact was
      · simp [ascend]
    · have aged : Settled k i ((r.setInfo j (age (r.info j) last)).note (.aged j last)) :=
        h.note rfl rfl (by simp [hj])
      exact aged.note rfl rfl (by simp [hj])

theorem admit_settled {k r r' : Kernel} {i j : Slot} (h : Settled k i r)
    (ho : AdmitOutcome r j r') : Settled k i r' := by
  cases ho with
  | idle => exact h
  | known => exact h.note rfl rfl rfl
  | admitted s₁ =>
    have same : (((r.setStore s₁).setInfo j { r.info j with addedToMLFQ := true }).info
        i).priority = (r.info i).priority := by
      rw [setInfo_info]
      exact update_reads (·.priority) (by rfl) i
    have admitted : Settled k i
        (((r.setStore s₁).setInfo j { r.info j with addedToMLFQ := true }).note
          (.admitted j)) := h.note rfl rfl same
    exact admitted.note rfl rfl rfl

theorem dispatch_settled {k r : Kernel} {i : Slot} (h : Settled k i r) (p : Option Slot) :
    Settled k i (dispatch r p) := by
  cases p with
  | none => exact h
  | some j => exact h.note rfl (dispatch_log r j) (by rw [dispatch_info])

/-- A charge that leaves the level of process `i` alone. -/
theorem charge_settled {k k' : Kernel} {i j : Slot} {b : Bool} (h : ChargeOutcome k j k' b)
    (same : (k'.info i).priority = (k.info i).priority) : Settled k i k' := by
  cases h with
  | within l => exact ⟨rfl, [.charged j l], rfl, Or.inl same⟩
  | spent l => exact ⟨rfl, [.spent j l, .charged j l], rfl, Or.inl same⟩
  | demoted l => exact ⟨rfl, [.demoted j l, .charged j l], rfl, Or.inl same⟩

theorem within_settled {k k' : Kernel} {i j : Slot} (h : ChargeOutcome k j k' false) :
    Settled k i k' := by
  refine charge_settled h ?_
  cases h with
  | within l => simpa using update_reads (·.priority) (by simp [tick]) i

/-- The kernel after the tick block settles to the one after the iteration. -/
theorem rest_settled {choose : Selection} {k k₁ k₂ k₃ : Kernel} {f : Frame} {i : Slot}
    (h : Settled k i k₁) (h₂ : ruleFive k₁ = .ok k₂) (h₃ : admissionScan k₂ = .ok k₃) :
    Settled k i (dispatch k₃ (selectionBlock choose k₃ f).p) := by
  have pass : Settled k i k₂ := ruleFive_keeps (I := Settled k i)
    (fun r last j r' hr ho => visit_settled hr ho) (fun r hr => hr.note rfl rfl rfl) h h₂
  have scan : Settled k i k₃ := admissionScan_keeps (I := Settled k i)
    (fun r j r' hr ho => admit_settled hr ho) pass h₃
  exact dispatch_settled scan _

/-- An iteration moves process `i` down exactly when its quantum expires. -/
theorem iteration_level {choose : Selection} {k k' : Kernel} {f f' : Frame}
    (metered : Metered k) (flag : k.mlfqFlag = true)
    (h : iteration choose k f = .ok (k', f')) (i : Slot) :
    (Expires ⟨k, f⟩ (.iterate choose) i ∧ ∃ l lower s₁, (k.info i).priority = l.val ∧
      (k'.info i).priority = lower.val ∧ lower.val = l.val + 1 ∧
      mlfqEnque k.store lower i = .ok s₁ ∧ mlfqDelete s₁ l i = .ok k'.store) ∨
    (¬ Expires ⟨k, f⟩ (.iterate choose) i ∧ Settled k i k') := by
  have hq := (metered i).quantum
  rcases iteration_parts h with ⟨j, hp, hs, hc, -⟩ | ⟨k₁, k₂, k₃, h₁, h₂, h₃, rfl, rfl⟩
  · cases hc with
    | spent l level full bottom =>
      refine Or.inr ⟨?_, ?_⟩
      · rintro ⟨⟨-, -, hi, -⟩, -, above⟩
        have heq : j = i := Option.some.inj (hp.symm.trans hi)
        subst heq
        simp only at above
        omega
      · refine charge_settled (.spent l level full bottom) ?_
        by_cases hj : i = j
        · subst hj
          simp [restart, tick]
        · simp [hj]
    | demoted l lower s₁ s₂ level full above below enque delete =>
      by_cases hj : i = j
      · subst hj
        have hticks := (metered i).at_level level
        refine Or.inl ⟨⟨⟨⟨choose, rfl⟩, flag, hp, hs⟩, ?_, ?_⟩, l, lower, s₁, level, ?_, below,
          enque, delete⟩
        · simp only
          omega
        · simp only
          omega
        · simp [descend, restart, tick, level, below]
      · refine Or.inr ⟨?_, ?_⟩
        · rintro ⟨⟨-, -, hi, -⟩, -⟩
          exact hj (Option.some.inj (hi.symm.trans hp))
        · refine charge_settled (.demoted l lower s₁ s₂ level full above below enque delete) ?_
          simp [hj]
  · refine Or.inr ⟨?_, ?_⟩
    · rintro ⟨⟨-, -, hi, hs⟩, full, -⟩
      rcases h₁ with ⟨-, idle⟩ | ⟨j, hp, -, hc⟩
      · rcases hs with hs | hs
        · exact (idle i hi).1 hs
        · exact (idle i hi).2 hs
      · have heq : j = i := Option.some.inj (hp.symm.trans hi)
        subst heq
        cases hc with
        | within l level room =>
          have hticks := (metered j).at_level level
          simp only at full
          omega
    · refine rest_settled ?_ h₂ h₃
      rcases h₁ with ⟨rfl, -⟩ | ⟨j, -, -, hc⟩
      · exact Settled.refl _ i
      · exact within_settled hc

/-- Outside an iteration only the reuse of its slot changes the level of `i`. -/
theorem other_level {s t : Machine} {e : Event} (other : ∀ choose, e ≠ .iterate choose)
    (h : step s e = .ok t) (i : Slot) :
    (t.kernel.info i).priority = (s.kernel.info i).priority ∨
      (t.kernel.info i).priority = 0 ∧ t.kernel.log = .reset i :: s.kernel.log := by
  cases step_effect h with
  | iterated => exact (other _ rfl).elim
  | returned => exact (other _ rfl).elim
  | quiet _ q => exact Or.inl (by rw [q.info])
  | recycled j others fresh =>
    have r := recycled_of_table others fresh
    by_cases hi : i = j
    · subst hi
      refine Or.inr ⟨?_, r.log⟩
      rw [r.fresh]
      rfl
    · exact Or.inl (by rw [r.other_info hi])
  | started m n => exact Or.inl (by rw [start_info])
  | stopped => exact Or.inl (by rw [stop_info])
  | lent => exact Or.inl rfl
  | repaid => exact Or.inl rfl

theorem step_level {s t : Machine} {e : Event} (metered : Metered s.kernel)
    (h : step s e = .ok t) (i : Slot) :
    (Expires s e i ∧ (t.kernel.info i).priority = (s.kernel.info i).priority + 1 ∧
      LevelChange s e i t) ∨
    ¬ Expires s e i ∧ ((t.kernel.info i).priority = (s.kernel.info i).priority ∨
      (t.kernel.info i).priority = 0 ∧ LevelChange s e i t) := by
  by_cases iterates : ∃ choose, e = .iterate choose
  · obtain ⟨choose, rfl⟩ := iterates
    cases step_effect h with
    | iterated flag hi =>
      rcases iteration_level metered flag hi i with
        ⟨hx, l, lower, s₁, upper, level, below, enque, delete⟩ | ⟨hx, hm, marks, hlog, hl⟩
      · refine Or.inl ⟨hx, ?_, .demoted hx l lower s₁ upper level below enque delete⟩
        rw [level, below, upper]
      · rcases hl with same | ⟨bottom, top, hb⟩
        · exact Or.inr ⟨hx, Or.inl same⟩
        · exact Or.inr ⟨hx, Or.inr ⟨top, .boosted marks ⟨_, rfl⟩ bottom top hlog hb⟩⟩
    | returned flag =>
      refine Or.inr ⟨?_, Or.inl rfl⟩
      rintro ⟨⟨-, on, -⟩, -⟩
      rw [flag] at on
      cases on
    | quiet other => exact (other _ rfl).elim
    | recycled j others fresh origin =>
      rcases origin with ⟨-, i', memory, copied, heq⟩ | ⟨i', heq, -⟩
      · cases heq
      · cases heq
  · refine Or.inr ⟨fun hx => iterates hx.1.1, ?_⟩
    rcases other_level (fun choose heq => iterates ⟨choose, heq⟩) h i with same | ⟨top, log⟩
    · exact Or.inl same
    · exact Or.inr ⟨top, .recycled top log⟩

/-- In every reachable state `ticks` holds the charges of the present quantum at
the level of the process and nothing elsewhere. A step moves a process one
level down exactly when it charges the last tick of that quantum above the
bottom level, and otherwise only boosts it or reuses its slot. -/
theorem quantum_law {s : Machine} (reach : Reachable s) (i : Slot) :
    (∀ l, l.val ≠ (s.kernel.info i).priority → (s.kernel.info i).ticks l = 0) ∧
    (∀ l, l.val = (s.kernel.info i).priority →
      (s.kernel.info i).ticks l = quantumTicks i s.kernel.log ∧
      (s.kernel.info i).ticks l < 2 * (l.val + 1)) ∧
    ∀ e t, step s e = .ok t →
      ((t.kernel.info i).priority = (s.kernel.info i).priority + 1 ↔ Expires s e i) ∧
      ((t.kernel.info i).priority ≠ (s.kernel.info i).priority → LevelChange s e i t) := by
  have metered := reachable_metered reach
  have own := metered i
  refine ⟨fun l hl => ?_, fun l hl => ?_, fun e t h => ?_⟩
  · rw [own.ticks l, if_neg hl]
  · have hticks := own.at_level hl.symm
    have hquantum := own.quantum
    constructor
    · exact hticks
    · omega
  · rcases step_level metered h i with ⟨hx, down, change⟩ | ⟨hx, same | ⟨top, change⟩⟩
    · exact ⟨⟨fun _ => hx, fun _ => down⟩, fun _ => change⟩
    · refine ⟨⟨fun down => ?_, fun hx' => (hx hx').elim⟩, fun moved => (moved same).elim⟩
      omega
    · refine ⟨⟨fun down => ?_, fun hx' => (hx hx').elim⟩, fun _ => change⟩
      omega

/-- The marks at which a process enters a level, the hand-out of its slot left out. -/
def entries (i : Slot) : Mark → Bool
  | .admitted j => j = i
  | .spent j _ => j = i
  | .demoted j _ => j = i
  | .boosted j _ => j = i
  | _ => false

/-- The ticks charged to process `i` since it last entered its level or used up a
quantum there. -/
def levelTicks (i : Slot) (log : List Mark) : Nat := tally (entries i) (charges i) log

theorem levelTicks_cons (i : Slot) (mark : Mark) (log : List Mark) :
    levelTicks i (mark :: log) =
      if entries i mark then 0
      else levelTicks i log + if charges i mark then 1 else 0 := tally_cons

/-- A process that the step charges has been admitted since its slot was handed out. -/
def AdmittedFirst (s : Machine) (e : Event) : Prop :=
  ∀ i, Charged s e i → (s.kernel.info i).addedToMLFQ = true

instance (s : Machine) (e : Event) (i : Slot) : Decidable (Charged s e i) :=
  match e with
  | .iterate choose =>
    decidable_of_iff (s.kernel.mlfqFlag = true ∧ s.frame.p = some i ∧
      ((s.kernel.proc i).state = .runnable ∨ (s.kernel.proc i).state = .running))
      ⟨fun h => ⟨⟨choose, rfl⟩, h⟩, And.right⟩
  | .rr _ | .yield _ | .sleep _ _ | .wakeup _ _ | .kill _ | .fork _ _ _ | .exit _ _
  | .wait _ _ | .startMLFQ _ _ | .stopMLFQ | .kalloc | .kfree _ =>
    isFalse fun ⟨⟨_, h⟩, _⟩ => nomatch h

instance (s : Machine) (e : Event) : Decidable (AdmittedFirst s e) :=
  inferInstanceAs (Decidable (∀ _, _ → _))

/-- The hand-out of a slot starts the quantum that the admission would start. -/
structure Entered (k : Kernel) (i : Slot) : Prop where
  member : (k.info i).addedToMLFQ = true → levelTicks i k.log = quantumTicks i k.log
  newcomer : (k.info i).addedToMLFQ = false → quantumTicks i k.log = 0

/-- A step that leaves the flag of process `i` alone, and both counts or neither. -/
theorem Entered.same {k k' : Kernel} {i : Slot} (h : Entered k i)
    (flag : (k'.info i).addedToMLFQ = (k.info i).addedToMLFQ)
    (level : levelTicks i k'.log = levelTicks i k.log)
    (quantum : quantumTicks i k'.log = quantumTicks i k.log) : Entered k' i := by
  constructor
  · intro added
    rw [level, quantum]
    exact h.member (flag ▸ added)
  · intro new
    rw [quantum]
    exact h.newcomer (flag ▸ new)

/-- A step at which a quantum of process `i` starts and the process enters its level. -/
theorem Entered.both {k : Kernel} {i : Slot} (level : levelTicks i k.log = 0)
    (quantum : quantumTicks i k.log = 0) : Entered k i :=
  ⟨fun _ => level.trans quantum.symm, fun _ => quantum⟩

theorem charge_entered {k k' : Kernel} {i j : Slot} {b : Bool} (h : Entered k i)
    (admitted : (k.info j).addedToMLFQ = true) (ho : ChargeOutcome k j k' b) :
    Entered k' i := by
  by_cases hj : j = i
  · subst hj
    cases ho with
    | within l =>
      refine ⟨fun _ => ?_, fun new => ?_⟩
      · simpa [levelTicks_cons, quantumTicks_cons, entries, restarts, charges]
          using h.member admitted
      · have added : (tick (k.info j) l).addedToMLFQ = true := admitted
        simp [added] at new
    | spent l =>
      exact .both (by simp [levelTicks_cons, entries]) (by simp [quantumTicks_cons, restarts])
    | demoted l =>
      exact .both (by simp [levelTicks_cons, entries]) (by simp [quantumTicks_cons, restarts])
  · have other : i ≠ j := Ne.symm hj
    cases ho with
    | within l =>
      refine h.same ?_ ?_ ?_
      · simp [other]
      · simp [levelTicks_cons, entries, charges, hj]
      · simp [quantumTicks_cons, restarts, charges, hj]
    | spent l =>
      refine h.same ?_ ?_ ?_
      · simp [other]
      · simp [levelTicks_cons, entries, charges, hj]
      · simp [quantumTicks_cons, restarts, charges, hj]
    | demoted l =>
      refine h.same ?_ ?_ ?_
      · simp [other]
      · simp [levelTicks_cons, entries, charges, hj]
      · simp [quantumTicks_cons, restarts, charges, hj]

theorem visit_entered {k k' : Kernel} {last : Level} {i j : Slot} (h : Entered k i)
    (ho : VisitOutcome k last j k') : Entered k' i := by
  cases ho with
  | skipped => exact h
  | aged =>
    refine h.same ?_ ?_ ?_
    · simpa using update_reads (·.addedToMLFQ) (by simp [age]) i
    · simp [levelTicks_cons, entries, charges]
    · simp [quantumTicks_cons, restarts, charges]
  | boosted =>
    by_cases hj : j = i
    · subst hj
      exact .both (by simp [levelTicks_cons, entries]) (by simp [quantumTicks_cons, restarts])
    · refine h.same ?_ ?_ ?_
      · simp [Ne.symm hj]
      · simp [levelTicks_cons, entries, charges, hj]
      · simp [quantumTicks_cons, restarts, charges, hj]

theorem admit_entered {k k' : Kernel} {i j : Slot} (h : Entered k i)
    (ho : AdmitOutcome k j k') : Entered k' i := by
  cases ho with
  | idle => exact h
  | known =>
    refine h.same rfl ?_ ?_
    · simp [levelTicks_cons, entries, charges]
    · simp [quantumTicks_cons, restarts, charges]
  | admitted s₁ runnable new =>
    by_cases hj : j = i
    · subst hj
      refine .both ?_ ?_
      · simp [levelTicks_cons, entries, charges]
      · simpa [quantumTicks_cons, restarts, charges] using h.newcomer new
    · refine h.same ?_ ?_ ?_
      · simp [Ne.symm hj]
      · simp [levelTicks_cons, entries, charges, hj]
      · simp [quantumTicks_cons, restarts, charges]

theorem levelTicks_dispatched (i j : Slot) (state : ProcState) (log : List Mark) :
    levelTicks i (.dispatched j state :: log) = levelTicks i log := by
  simp [levelTicks_cons, entries, charges]

theorem iteration_entered {choose : Selection} {k k' : Kernel} {f f' : Frame} {i : Slot}
    (hs : Entered k i) (admitted : ∀ j, f.p = some j →
      (k.proc j).state = .runnable ∨ (k.proc j).state = .running →
      (k.info j).addedToMLFQ = true)
    (h : iteration choose k f = .ok (k', f')) : Entered k' i := by
  have charge : ∀ {r : Kernel} {j : Slot} {b : Bool}, f.p = some j →
      ((k.proc j).state = .runnable ∨ (k.proc j).state = .running) →
      ChargeOutcome k j r b → Entered r i :=
    fun hp awake hc => charge_entered hs (admitted _ hp awake) hc
  rcases iteration_parts h with ⟨j, hp, awake, hc, -⟩ | ⟨k₁, k₂, k₃, h₁, h₂, h₃, -, rfl⟩
  · exact charge hp awake hc
  · have charged : Entered k₁ i := by
      rcases h₁ with ⟨rfl, -⟩ | ⟨j, hp, awake, hc⟩
      · exact hs
      · exact charge hp awake hc
    have passed : Entered k₂ i := by
      refine ruleFive_keeps (I := fun r => Entered r i)
        (fun _ _ _ _ hr ho => visit_entered hr ho) (fun r hr => hr.same rfl ?_ ?_) charged h₂
      · simp [levelTicks_cons, entries, charges]
      · simp [quantumTicks_cons, restarts, charges]
    have scanned : Entered k₃ i := admissionScan_keeps (I := fun r => Entered r i)
      (fun _ _ _ hr ho => admit_entered hr ho) passed h₃
    exact scanned.same (by rw [dispatch_info])
      (dispatch_reads (levelTicks_dispatched i) _ _)
      (dispatch_reads (quantumTicks_dispatched i) _ _)

theorem step_entered {s t : Machine} {e : Event} {i : Slot} (hs : Entered s.kernel i)
    (admitted : AdmittedFirst s e) (h : step s e = .ok t) : Entered t.kernel i := by
  cases step_effect h with
  | iterated flag hi =>
    exact iteration_entered hs (fun j hp awake => admitted j ⟨⟨_, rfl⟩, flag, hp, awake⟩) hi
  | returned => exact hs
  | quiet other q =>
    exact hs.same (by rw [q.info]) (quiet_reads (levelTicks_dispatched i) q)
      (quiet_reads (quantumTicks_dispatched i) q)
  | recycled j others fresh =>
    have r := recycled_of_table others fresh
    by_cases hi : i = j
    · subst hi
      refine ⟨fun added => ?_, fun _ => ?_⟩
      · rw [r.fresh] at added
        cases added
      · rw [r.log]
        simp [quantumTicks_cons, restarts]
    · refine hs.same (by rw [r.other_info hi]) ?_ ?_
      · rw [r.log]
        simp [levelTicks_cons, entries, charges]
      · rw [r.log]
        simp [quantumTicks_cons, restarts, charges, Ne.symm hi]
  | started m n flag =>
    refine hs.same (by rw [start_info]) ?_ ?_
    · rw [(start_idle m n flag).2.2.2.2]
      simp [levelTicks_cons, entries, charges]
    · rw [(start_idle m n flag).2.2.2.2]
      simp [quantumTicks_cons, restarts, charges]
  | stopped flag =>
    refine hs.same (by rw [stop_info]) ?_ ?_
    · rw [(stop_running flag).2.2.2.2]
      simp [levelTicks_cons, entries, charges]
    · rw [(stop_running flag).2.2.2.2]
      simp [quantumTicks_cons, restarts, charges]
  | lent => exact hs.same rfl rfl rfl
  | repaid => exact hs.same rfl rfl rfl

/-- In a run that charges no process before its admission, `ticks` holds at the level
of a process the charges since it entered that level, and a step moves it one level
down exactly when it charges the last tick of a quantum counted from there. -/
theorem admitted_quantum_law {pages : List Addr} (nodup : pages.Nodup) {es : List Event}
    (kept : Meets step AdmittedFirst (boot pages) es) {s : Machine}
    (h : run step (boot pages) es = .ok s) (i : Slot) :
    (∀ l, l.val ≠ (s.kernel.info i).priority → (s.kernel.info i).ticks l = 0) ∧
    (∀ l, l.val = (s.kernel.info i).priority →
      (s.kernel.info i).ticks l < 2 * (l.val + 1) ∧
      ((s.kernel.info i).addedToMLFQ = true →
        (s.kernel.info i).ticks l = levelTicks i s.kernel.log)) ∧
    ∀ e t, AdmittedFirst s e → step s e = .ok t →
      ((t.kernel.info i).priority = (s.kernel.info i).priority + 1 ↔
        Charged s e i ∧ levelTicks i s.kernel.log + 1 = 2 * ((s.kernel.info i).priority + 1) ∧
          ((s.kernel.info i).priority : Int) < s.kernel.m - 1) ∧
      ((t.kernel.info i).priority ≠ (s.kernel.info i).priority → LevelChange s e i t) := by
  have entered : Entered s.kernel i := by
    refine run_invariant (I := fun s => Entered s.kernel i)
      (fun _ _ _ hs hG ht => step_entered hs hG ht) ?_ kept h
    refine ⟨fun added => ?_, fun _ => rfl⟩
    rw [boot_info] at added
    cases added
  obtain ⟨zero, own, moves⟩ := quantum_law ⟨pages, es, nodup, h⟩ i
  refine ⟨zero, fun l hl => ⟨(own l hl).2, fun added => ?_⟩, fun e t admitted ht => ?_⟩
  · rw [(own l hl).1, entered.member added]
  · obtain ⟨down, change⟩ := moves e t ht
    refine ⟨down.trans ⟨?_, ?_⟩, change⟩
    · rintro ⟨charged, full, above⟩
      exact ⟨charged, by rwa [entered.member (admitted i charged)], above⟩
    · rintro ⟨charged, full, above⟩
      exact ⟨charged, by rwa [← entered.member (admitted i charged)], above⟩

/-- The first process uses up its quantum in the top queue and three ticks of the
next one. -/
def demotedRun : List Event :=
  [.rr 0, .startMLFQ 3 5, .yield 0, .iterate (select none), .yield 0, .iterate (select none),
    .yield 0, .iterate (select none), .iterate (select none), .yield 0, .iterate (select none),
    .yield 0, .iterate (select none), .yield 0, .iterate (select none), .yield 0]

theorem admitted_quantum_law_demoted :
    ∃ s t, run step (boot [0, 1, 2, 3]) demotedRun = .ok s ∧
      step s (.iterate (select none)) = .ok t ∧
      (s.kernel.log.count (.demoted 0 0) = 1 ∧ levelTicks 0 s.kernel.log = 3 ∧
        (t.kernel.info 0).priority = 2) ∧
      (s.kernel.info 0).ticks 0 = 0 ∧ (s.kernel.info 0).ticks 1 = levelTicks 0 s.kernel.log ∧
      ((t.kernel.info 0).priority = (s.kernel.info 0).priority + 1 ↔
        Charged s (.iterate (select none)) 0 ∧
          levelTicks 0 s.kernel.log + 1 = 2 * ((s.kernel.info 0).priority + 1) ∧
          ((s.kernel.info 0).priority : Int) < s.kernel.m - 1) ∧
      LevelChange s (.iterate (select none)) 0 t := by
  have kept : Meets step AdmittedFirst (boot [0, 1, 2, 3]) demotedRun := by decide +kernel
  have seen : Yields (run step (boot [0, 1, 2, 3]) demotedRun) fun s =>
      AdmittedFirst s (.iterate (select none)) ∧
      ((s.kernel.info 0).addedToMLFQ = true ∧ (s.kernel.info 0).priority = 1) ∧
      Yields (step s (.iterate (select none))) fun t =>
        s.kernel.log.count (.demoted 0 0) = 1 ∧ levelTicks 0 s.kernel.log = 3 ∧
          (t.kernel.info 0).priority = 2 := by
    decide +kernel
  obtain ⟨s, hs, admitted, ⟨added, level⟩, t, ht, facts⟩ := seen
  obtain ⟨zero, own, moves⟩ := admitted_quantum_law (by decide) kept hs 0
  obtain ⟨down, change⟩ := moves _ t admitted ht
  refine ⟨s, t, hs, ht, facts, zero 0 (by simp [level]), (own 1 (by simp [level])).2 added,
    down, change ?_⟩
  rw [facts.2.2, level]
  decide

/-- Slot 1 exits while the scheduler keeps it in `p`, and is reaped and reused. -/
def reuseRun : List Event :=
  [.rr 0, .fork 0 true true, .startMLFQ 3 5, .yield 0, .iterate (select none), .yield 0,
    .iterate (select none), .yield 0, .iterate (select none), .iterate (select none),
    .rr 0, .exit 1 0, .wait 0 true, .fork 0 true true, .iterate (select none), .yield 1]

/-- The new process is charged once before its admission, so the first tick after
the admission is already the last one of its quantum. -/
theorem admission_is_no_start :
    (Yields (run step (boot [0, 1, 2, 3]) reuseRun) fun s =>
      (s.kernel.info 1).priority = 0 ∧ levelTicks 1 s.kernel.log = 0 ∧
        s.kernel.log.count (.admitted 1) = 2) ∧
    (Yields (run step (boot [0, 1, 2, 3]) (reuseRun ++ [.iterate (select none)])) fun s =>
      (s.kernel.info 1).priority = 1 ∧ s.kernel.log.head? = some (.demoted 1 0)) := by
  decide +kernel

end TickAccounting
