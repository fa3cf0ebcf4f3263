import Xv6.RuleFivePass

/-!
# Array bounds over runs

Two facts hold of every reachable kernel, whatever arguments `startMLFQ` was
given: the queues are well formed and every priority is below
`MLFQ_MAX_LEVEL`. With a parameter `m` between 1 and `MLFQ_MAX_LEVEL` an
iteration then cannot fault, so a session stays inside its arrays. `startMLFQ`
does not check `m`, and for any other value the session leaves them within two
iterations; those values are therefore exactly the failing ones.
-/

namespace LevelBounds

open ProcTable QueueStore FeedbackScheduler SchedulerRuns SchedulerBlocks RuleFivePass
open EventRuns Outcomes

structure Sound (k : Kernel) : Prop where
  wf : Wf k.store
  range : ∀ i, (k.info i).priority < mlfqMaxLevel

/-- A change of one process that keeps its priority in range. -/
theorem range_update {k : Kernel} {i : Slot} (info : MLFQInfoReport)
    (h : ∀ j, (k.info j).priority < mlfqMaxLevel) (hi : info.priority < mlfqMaxLevel) :
    ∀ j, (Function.update k.info i info j).priority < mlfqMaxLevel := by
  intro j
  by_cases hj : j = i
  · subst hj
    simpa using hi
  · simpa [hj] using h j

theorem charge_sound {k k' : Kernel} {i : Slot} {b : Bool} (s : Sound k)
    (h : ChargeOutcome k i k' b) : Sound k' := by
  cases h with
  | within l =>
    refine ⟨s.wf, ?_⟩
    simpa using range_update (tick (k.info i) l) s.range (s.range i)
  | spent l =>
    refine ⟨s.wf, ?_⟩
    simpa using range_update (restart (tick (k.info i) l) l) s.range (s.range i)
  | demoted l lower s₁ s₂ level full above below enque delete =>
    refine ⟨(delete_effect (enque_effect s.wf enque).1 delete).1, ?_⟩
    have hd : (descend (tick (k.info i) l) l).priority < mlfqMaxLevel := by
      have := lower.isLt
      simp only [descend, restart, tick]
      omega
    simpa using range_update _ s.range hd

theorem visit_sound {k k' : Kernel} {last : Level} {i : Slot} (s : Sound k)
    (h : VisitOutcome k last i k') : Sound k' := by
  cases h with
  | skipped => exact s
  | aged =>
    refine ⟨s.wf, ?_⟩
    simpa using range_update (age (k.info i) last) s.range (s.range i)
  | boosted s₁ s₂ bottom level due enque delete =>
    refine ⟨(delete_effect (enque_effect s.wf enque).1 delete).1, ?_⟩
    have ha : (ascend (age (k.info i) last) last).priority < mlfqMaxLevel := by
      simp [ascend]
    simpa using range_update _ s.range ha

theorem admit_sound {k k' : Kernel} {i : Slot} (s : Sound k) (h : AdmitOutcome k i k') :
    Sound k' := by
  cases h with
  | idle => exact s
  | known => exact ⟨s.wf, s.range⟩
  | admitted s₁ runnable new enque =>
    refine ⟨(enque_effect s.wf enque).1, ?_⟩
    simpa using
      range_update { k.info i with addedToMLFQ := true } s.range (s.range i)

theorem start_wf {k : Kernel} (w : Wf k.store) :
    Wf { k.store with head := fun _ => none } := by
  obtain ⟨q, h⟩ := w
  exact ⟨fun _ => [], fun _ => rfl, fun _ => trivial, fun _ => List.nodup_nil,
    fun _ _ _ ha => (List.not_mem_nil ha).elim, fun _ _ ha => (List.not_mem_nil ha).elim,
    h.free, h.freeNodup, h.takenNodup⟩

theorem step_sound {s s' : Machine} {e : Event} (hs : Sound s.kernel)
    (h : step s e = .ok s') : Sound s'.kernel := by
  refine step_keeps (fun k i k' b s h => charge_sound s h)
    (fun k last i k' s h => visit_sound s h) (fun k s => ⟨s.wf, s.range⟩)
    (fun k i k' s h => admit_sound s h) ?switch ?quiet ?recycle ?start ?stop ?lend ?repay hs h
  case switch =>
    intro k p s
    exact ⟨by simpa using s.wf, by simpa using s.range⟩
  case quiet =>
    intro k k' s q
    refine ⟨q.store ▸ s.wf, fun i => ?_⟩
    rw [q.info i]
    exact s.range i
  case recycle =>
    intro k k' j s r
    refine ⟨r.store ▸ s.wf, fun i => ?_⟩
    by_cases hi : i = j
    · subst hi
      rw [r.fresh]
      decide
    · rw [r.other_info hi]
      exact s.range i
  case start =>
    intro k m n s flag
    simp only [startMLFQ, flag]
    exact ⟨start_wf s.wf, s.range⟩
  case stop =>
    intro k s flag
    simp only [stopMLFQ, flag]
    exact ⟨s.wf, s.range⟩
  case lend =>
    intro k a pages s hf
    obtain ⟨q, hq⟩ := s.wf
    refine ⟨s.wf.setFreelist ?_ ?_, s.range⟩
    · exact (List.nodup_cons.mp (hf ▸ hq.freeNodup)).2
    · intro b hb
      exact hq.free b (hf ▸ List.mem_cons_of_mem a hb)
  case repay =>
    intro k a s free other
    obtain ⟨q, hq⟩ := s.wf
    refine ⟨s.wf.setFreelist (List.nodup_cons.mpr ⟨free, hq.freeNodup⟩) ?_, s.range⟩
    intro b hb
    rcases List.mem_cons.mp hb with rfl | hb
    · exact other
    · exact hq.free b hb

theorem boot_info (pages : List Addr) (i : Slot) : (boot pages).kernel.info i = .zero := by
  have first : unusedSlot { proc := fun _ => .boot, nextpid := 1 } = some initproc := by decide
  by_cases hi : i = initproc
  · subst hi
    simp [boot, Kernel.info, userinit, allocproc, first]
  · simp only [boot, Kernel.info, userinit, allocproc, first, if_true]
    rw [Table.set_other _ _ hi, Table.set_other _ _ hi]
    rfl

theorem boot_sound {pages : List Addr} (nodup : pages.Nodup) : Sound (boot pages).kernel := by
  refine ⟨⟨fun _ => [], fun _ => rfl, fun _ => trivial, fun _ => List.nodup_nil,
    fun _ _ _ ha => (List.not_mem_nil ha).elim, fun _ _ ha => (List.not_mem_nil ha).elim,
    fun _ _ h => List.not_mem_nil h, nodup, List.nodup_nil⟩, fun i => ?_⟩
  rw [boot_info]
  decide

/-- Well formed queues and priorities in range hold in every reachable state. -/
theorem reachable_sound {s : Machine} (h : Reachable s) : Sound s.kernel :=
  h.induct (I := fun s => Sound s.kernel) (fun _ nodup => boot_sound nodup)
    fun _ _ _ hs ht => step_sound hs ht

/-- The argument of `startMLFQ` names at least one queue and no more than exist. -/
def InForce (k : Kernel) : Prop := 1 ≤ k.m ∧ k.m ≤ mlfqMaxLevel

theorem InForce.last {k : Kernel} (h : InForce k) : ∃ last : Level, (last.val : Int) = k.m - 1 := by
  obtain ⟨low, high⟩ := h
  refine ⟨⟨(k.m - 1).toNat, ?_⟩, ?_⟩
  · simp only [mlfqMaxLevel] at *
    omega
  · simp only
    omega

/-- The tick block either completes or indexes the queue below the last one,
which needs a parameter above `MLFQ_MAX_LEVEL`. -/
theorem chargeTick_total {k : Kernel} (s : Sound k) (i : Slot) :
    (∃ r, chargeTick k i = .ok r) ∨ ((mlfqMaxLevel : Int) < k.m ∧
      chargeTick k i = .error .outOfBounds) := by
  let l : Level := ⟨(k.info i).priority, s.range i⟩
  have hl : mlfqIndex ((k.info i).priority : Int) = .ok l := mlfqIndex_eq_ok.mpr rfl
  simp only [chargeTick, hl, Bind.bind, Except.bind, note_m, setInfo_m, note_store,
    setInfo_store, Function.update_self]
  by_cases full : 2 * ((k.info i).priority + 1) ≤ (k.info i).ticks l + 1
  · simp only [if_pos full]
    by_cases above : ((k.info i).priority : Int) < k.m - 1
    · simp only [above, ↓reduceIte]
      by_cases below : (k.info i).priority + 1 < mlfqMaxLevel
      · have hlower : mlfqIndex ((k.info i).priority + 1 : Int) =
            .ok ⟨(k.info i).priority + 1, below⟩ := mlfqIndex_eq_ok.mpr (by simp)
        obtain ⟨s₁, h₁⟩ := enque_total s.wf ⟨(k.info i).priority + 1, below⟩ i
        obtain ⟨s₂, h₂⟩ := delete_total (enque_effect s.wf h₁).1 l i
        exact Or.inl ⟨_, by simp only [hlower, h₁, h₂]; rfl⟩
      · have out : mlfqIndex ((k.info i).priority + 1 : Int) = .error .outOfBounds :=
          mlfqIndex_error (by omega)
        exact Or.inr ⟨by omega, by simp only [out]⟩
    · simp only [above, ↓reduceIte]
      exact Or.inl ⟨_, rfl⟩
  · simp only [if_neg full]
    exact Or.inl ⟨_, rfl⟩

theorem tickBlock_total {k : Kernel} (s : Sound k) (p : Option Slot) :
    (∃ r, tickBlock k p = .ok r) ∨ ((mlfqMaxLevel : Int) < k.m ∧
      tickBlock k p = .error .outOfBounds) := by
  cases p with
  | none => exact Or.inl ⟨_, rfl⟩
  | some i =>
    simp only [tickBlock]
    split
    · exact chargeTick_total s i
    · exact Or.inl ⟨_, rfl⟩

theorem ruleFive_total {k : Kernel} (s : Sound k) (h : InForce k) :
    Yields (ruleFive k) Sound := by
  obtain ⟨last, bottom⟩ := h.last
  have hp := pass_rule (I := fun k _ => Sound k) bottom s.wf
    (fun k i rest k' hs _ _ _ hv => visit_sound hs hv) s
  refine hp.mono fun k' ⟨_, k₀, heq, hs⟩ => ?_
  subst heq
  exact ⟨hs.wf, hs.range⟩

theorem admissionScan_total {k : Kernel} (s : Sound k) : Yields (admissionScan k) Sound := by
  refine yields_foldlM (I := fun k _ => Sound k) (fun k i rest hs => ?_) s
  have total : ∃ k', admissionTurn k i = .ok k' := by
    unfold admissionTurn
    split
    · split
      · exact ⟨_, rfl⟩
      · obtain ⟨s₁, h₁⟩ := enque_total hs.wf 0 i
        exact ⟨_, by simp only [h₁, Bind.bind, Except.bind]; rfl⟩
    · exact ⟨_, rfl⟩
  obtain ⟨k', hk'⟩ := total
  exact ⟨k', hk', admit_sound hs (admit_outcome hk')⟩

/-- No index leaves its array, and every loop of the iteration ends. -/
theorem iteration_total (choose : Selection) {k : Kernel} (f : Frame) (s : Sound k)
    (h : InForce k) : ∃ r, iteration choose k f = .ok r := by
  rcases tickBlock_total s f.p with ⟨⟨k₁, b⟩, ht⟩ | ⟨out, -⟩
  · cases b with
    | true => exact ⟨_, by simp only [iteration, ht, Bind.bind, Except.bind]; rfl⟩
    | false =>
      have h₁ : Sound k₁ ∧ k₁.m = k.m := by
        rcases tickBlock_outcome ht with ⟨rfl, -⟩ | ⟨i, -, -, hc⟩
        · exact ⟨s, rfl⟩
        · exact ⟨charge_sound s hc, (charge_settings hc).m⟩
      have force : InForce k₁ := by
        unfold InForce
        rw [h₁.2]
        exact h
      obtain ⟨k₂, h₂, s₂⟩ := ruleFive_total h₁.1 force
      obtain ⟨k₃, h₃, -⟩ := admissionScan_total s₂
      exact ⟨_, by simp only [iteration, ht, Bind.bind, Except.bind, h₂, h₃]; rfl⟩
  · have := h.2
    omega

/-- Outside the range an iteration either faults or ends in the tick block. -/
theorem iteration_out_of_range (choose : Selection) {k : Kernel} (f : Frame) (s : Sound k)
    (h : ¬ InForce k) :
    iteration choose k f = .error .outOfBounds ∨
      f.p ≠ none ∧ ∃ k', Sound k' ∧ k'.m = k.m ∧ k'.mlfqFlag = k.mlfqFlag ∧
        iteration choose k f = .ok (k', { f with p := none }) := by
  rcases tickBlock_total s f.p with ⟨⟨k₁, b⟩, ht⟩ | ⟨-, ht⟩
  · cases b with
    | true =>
      refine Or.inr ⟨?_, k₁, ?_⟩
      · intro hp
        rw [hp] at ht
        cases ht
      · rcases tickBlock_outcome ht with ⟨-, hb, -⟩ | ⟨i, -, -, hc⟩
        · cases hb
        · refine ⟨charge_sound s hc, (charge_settings hc).m, (charge_settings hc).flag, ?_⟩
          simp only [iteration, ht, Bind.bind, Except.bind]
          rfl
    | false =>
      refine Or.inl ?_
      have hm : k₁.m = k.m := by
        rcases tickBlock_outcome ht with ⟨rfl, -⟩ | ⟨i, -, -, hc⟩
        · rfl
        · exact (charge_settings hc).m
      have out : mlfqIndex (k₁.m - 1) = .error .outOfBounds := by
        refine mlfqIndex_error ?_
        rw [hm]
        intro hin
        exact h ⟨by omega, by omega⟩
      simp only [iteration, ht, Bind.bind, Except.bind, ruleFive, out]
      rfl
  · exact Or.inl (by simp only [iteration, ht, Bind.bind, Except.bind])

/-- The kernel of a session with the parameter `m`, which nothing changes. -/
structure InSession (m : Int) (k : Kernel) : Prop where
  sound : Sound k
  m : k.m = m

theorem step_session {m : Int} {s s' : Machine} {e : Event} (hs : InSession m s.kernel)
    (same : Continues s e) (h : step s e = .ok s') : InSession m s'.kernel := by
  refine ⟨step_sound hs.sound h, ?_⟩
  rw [← hs.m]
  cases step_effect h with
  | iterated flag hi => exact (iteration_settings hi).1
  | returned => rfl
  | quiet other q => exact q.m
  | recycled => rfl
  | started m n flag =>
    have := same m n rfl
    rw [flag] at this
    cases this
  | stopped flag => simp [stopMLFQ, flag]
  | lent => rfl
  | repaid => rfl

/-- A step faults only in an iteration, and then only outside the range. -/
theorem step_total {m : Int} {s : Machine} (hs : InSession m s.kernel)
    (range : 1 ≤ m ∧ m ≤ mlfqMaxLevel) (e : Event) : ∃ t, step s e = .ok t := by
  cases e with
  | iterate choose =>
    by_cases flag : s.kernel.mlfqFlag
    · obtain ⟨r, hr⟩ := iteration_total choose s.frame hs.sound (by rw [InForce, hs.m]; exact range)
      exact ⟨_, by simp only [step, flag, if_true, hr, Bind.bind, Except.bind]; rfl⟩
    · exact ⟨_, by simp only [step, flag]; rfl⟩
  | _ => exact ⟨_, rfl⟩

theorem session_start {s : Machine} (hs : Sound s.kernel) (idle : s.kernel.mlfqFlag = false)
    (m n : Int) : InSession m (session s m n).kernel := by
  simp only [session, startMLFQ, idle]
  exact ⟨⟨start_wf hs.wf, hs.range⟩, rfl⟩

/-- A session with a parameter in range runs on without a fault. -/
theorem session_total {s : Machine} (reach : Reachable s) (idle : s.kernel.mlfqFlag = false)
    {m : Int} (n : Int) (range : 1 ≤ m ∧ m ≤ mlfqMaxLevel) {es : List Event}
    (same : Meets step Continues (session s m n) es) :
    ∃ t, run step (session s m n) es = .ok t ∧ InSession m t.kernel := by
  refine run_total (G := Continues) (I := fun s => InSession m s.kernel)
    (fun s e hs hc => ?_) (session_start (reachable_sound reach) idle m n) same
  obtain ⟨t, ht⟩ := step_total hs range e
  exact ⟨t, ht, step_session hs hc ht⟩

/-- The session rule: an invariant that holds at the start of a session, and that
every step under `G` keeps, holds in every state of the session. -/
theorem session_rule {s : Machine} (reach : Reachable s) (idle : s.kernel.mlfqFlag = false)
    {m : Int} (n : Int) (range : 1 ≤ m ∧ m ≤ mlfqMaxLevel) {G : Machine → Event → Prop}
    {I : Kernel → Prop} (continues : ∀ s e, G s e → Continues s e)
    (start : I (session s m n).kernel)
    (keep : ∀ s e t, Sound s.kernel → I s.kernel → G s e → step s e = .ok t → I t.kernel)
    {es : List Event} (kept : Meets step G (session s m n) es) :
    ∃ t, run step (session s m n) es = .ok t ∧ InSession m t.kernel ∧ I t.kernel := by
  obtain ⟨t, ht, ts⟩ := session_total reach idle n range (kept.mono continues)
  have first := (session_start (reachable_sound reach) idle m n).sound
  have all : Sound t.kernel ∧ I t.kernel :=
    run_invariant (I := fun s => Sound s.kernel ∧ I s.kernel)
      (fun s e t hs hG h => ⟨step_sound hs.1 h, keep s e t hs.1 hs.2 hG h⟩)
      ⟨first, start⟩ kept ht
  exact ⟨t, ht, ts, all.2⟩

theorem continues_iterate (s : Machine) (choose : Selection) :
    Continues s (.iterate choose) := by
  intro m n h
  cases h

/-- Outside the range two turns of the loop reach an index outside its array. -/
theorem two_iterations_fault {m : Int} {k : Kernel} (f : Frame) (choose : Selection)
    (hs : InSession m k) (flag : k.mlfqFlag = true) (h : ¬ (1 ≤ m ∧ m ≤ mlfqMaxLevel)) :
    run step ⟨k, f⟩ [.iterate choose, .iterate choose] = .error .outOfBounds := by
  have out : ¬ InForce k := by
    unfold InForce
    rw [hs.m]
    exact h
  rcases iteration_out_of_range choose f hs.sound out with hf | ⟨-, k', s', hm, hflag, hi⟩
  · simp only [run, step, flag, if_true, hf, Bind.bind, Except.bind]
  · have out' : ¬ InForce k' := by
      unfold InForce
      rw [hm]
      exact out
    rcases iteration_out_of_range choose ⟨none, f.rrIndex⟩ s' out' with hf | ⟨hp, -⟩
    · rw [flag] at hflag
      simp only [run, step, flag, if_true, hi, Bind.bind, Except.bind, pure, Except.pure,
        hflag, hf]
    · exact (hp rfl).elim

/-- `startMLFQ` succeeds with any `m`, and the session it begins keeps every
index inside its array exactly when `m` is between 1 and `MLFQ_MAX_LEVEL`. -/
theorem session_in_bounds_iff {s : Machine} (reach : Reachable s)
    (idle : s.kernel.mlfqFlag = false) (m n : Int) :
    (startMLFQ s.kernel m n).1 = 0 ∧
    ((∀ es, Meets step Continues (session s m n) es →
        run step (session s m n) es ≠ .error .outOfBounds) ↔
      1 ≤ m ∧ m ≤ mlfqMaxLevel) := by
  refine ⟨by simp [startMLFQ, idle], ?_, ?_⟩
  · intro safe
    by_contra out
    have start := session_start (reachable_sound reach) idle m n
    have flag : (session s m n).kernel.mlfqFlag = true := by
      simp [session, startMLFQ, idle]
    refine safe [.iterate (select none), .iterate (select none)] ?_ ?_
    · exact ⟨continues_iterate _ _, fun t _ => ⟨continues_iterate _ _, fun _ _ => trivial⟩⟩
    · exact two_iterations_fault _ _ start flag out
  · intro range es same
    obtain ⟨t, ht, -⟩ := session_total reach idle n range same
    rw [ht]
    intro h
    cases h

theorem boot_reachable {pages : List Addr} (nodup : pages.Nodup) : Reachable (boot pages) :=
  ⟨pages, [], nodup, rfl⟩

theorem session_in_bounds_three :
    (startMLFQ (boot []).kernel 3 5).1 = 0 ∧
    ((∀ es, Meets step Continues (session (boot []) 3 5) es →
        run step (session (boot []) 3 5) es ≠ .error .outOfBounds) ↔
      1 ≤ (3 : Int) ∧ (3 : Int) ≤ mlfqMaxLevel) :=
  session_in_bounds_iff (boot_reachable List.nodup_nil) rfl 3 5

/-- The first process starts a session with no queue, or with one too many. -/
theorem unchecked_parameter :
    run step (boot []) [.rr 0, .startMLFQ 0 5, .yield 0, .iterate (select none)] =
      .error .outOfBounds ∧
    run step (boot []) [.rr 0, .startMLFQ 11 5, .yield 0, .iterate (select none)] =
      .error .outOfBounds ∧
    (startMLFQ (boot []).kernel 0 5).1 = 0 ∧ (startMLFQ (boot []).kernel 11 5).1 = 0 := by
  refine ⟨rfl, rfl, rfl, rfl⟩

end LevelBounds
