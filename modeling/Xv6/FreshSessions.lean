import Xv6.SuppliedRuns
import Xv6.Lib.Histories

/-!
# Sessions that follow one another

`startMLFQ` clears the queue heads and leaves every process as the session
before it did. A session is fresh when no slot carries MLFQ state into it: then
levels stay below `m`, an admitted process is linked in the queue of its level,
and a bottom-level count is the number of Rule 5 visits of this session.
-/

namespace FreshSessions

open ProcTable QueueStore FeedbackScheduler SchedulerRuns SchedulerBlocks LevelBounds
open SuppliedRuns EventRuns Outcomes Histories

/-- A new session, or a new process in slot `i`. -/
def opens (i : Slot) : Mark → Bool
  | .started _ _ => true
  | .reset j => j = i
  | _ => false

/-- The marks at which the bottom-level count of process `i` starts again. -/
def renews (i : Slot) : Mark → Bool
  | .started _ _ => true
  | .reset j => j = i
  | .boosted j _ => j = i
  | _ => false

def scans (i : Slot) : Mark → Bool
  | .scanned j => j = i
  | _ => false

def visits (i : Slot) : Mark → Bool
  | .aged j _ => j = i
  | _ => false

/-- The admission scans of this session that found process `i` runnable. -/
def scansSince (i : Slot) (log : List Mark) : Nat := tally (opens i) (scans i) log

/-- The Rule 5 visits of this session to process `i` since its last boost. -/
def visitsSince (i : Slot) (log : List Mark) : Nat := tally (renews i) (visits i) log

theorem scansSince_cons (i : Slot) (mark : Mark) (log : List Mark) :
    scansSince i (mark :: log) = if opens i mark then 0
      else scansSince i log + if scans i mark then 1 else 0 := tally_cons

theorem visitsSince_cons (i : Slot) (mark : Mark) (log : List Mark) :
    visitsSince i (mark :: log) = if renews i mark then 0
      else visitsSince i log + if visits i mark then 1 else 0 := tally_cons

/-- No process carries anything of an earlier session. -/
structure Fresh (k : Kernel) : Prop where
  level : ∀ i, ((k.info i).priority : Int) ≤ k.m - 1
  linked : ∀ i l, (k.info i).priority = l.val →
    (k.info i).addedToMLFQ = true ∨ 0 < (k.info i).priority → 0 < (k.store.queue l).count i
  scanned : ∀ i, 0 < scansSince i k.log → (k.info i).addedToMLFQ = true
  counted : ∀ i, (k.info i).ticksAtMaxPriority = visitsSince i k.log
  bottom : ∀ i, (k.info i).ticksAtMaxPriority ≠ 0 → ((k.info i).priority : Int) = k.m - 1

variable {k k' : Kernel} {i : Slot}

/-- A step that changes none of what the law reads. -/
theorem Fresh.same (h : Fresh k) (hm : k'.m = k.m) (queue : k'.store.queue = k.store.queue)
    (added : ∀ j, (k'.info j).addedToMLFQ = (k.info j).addedToMLFQ)
    (priority : ∀ j, (k'.info j).priority = (k.info j).priority)
    (counter : ∀ j, (k'.info j).ticksAtMaxPriority = (k.info j).ticksAtMaxPriority)
    (log : ∀ j, scansSince j k'.log = scansSince j k.log ∧
      visitsSince j k'.log = visitsSince j k.log) : Fresh k' := by
  constructor
  · intro j
    rw [priority j, hm]
    exact h.level j
  · intro j l
    rw [priority j, added j, queue]
    exact h.linked j l
  · intro j
    rw [(log j).1, added j]
    exact h.scanned j
  · intro j
    rw [counter j, (log j).2]
    exact h.counted j
  · intro j
    rw [counter j, priority j, hm]
    exact h.bottom j

theorem charge_fresh {b : Bool} (w : Wf k.store) (h : Fresh k) (ho : ChargeOutcome k i k' b)
    (supplied : k'.store.failed = k.store.failed) : Fresh k' := by
  cases ho with
  | within l =>
    refine h.same rfl rfl (fun j => ?_) (fun j => ?_) (fun j => ?_) fun j => ?_
    · simpa using update_reads (·.addedToMLFQ) (by simp [tick]) j
    · simpa using update_reads (·.priority) (by simp [tick]) j
    · simpa using update_reads (·.ticksAtMaxPriority) (by simp [tick]) j
    · simp [scansSince_cons, visitsSince_cons, opens, scans, renews, visits]
  | spent l =>
    refine h.same rfl rfl (fun j => ?_) (fun j => ?_) (fun j => ?_) fun j => ?_
    · simpa using update_reads (·.addedToMLFQ) (by simp [restart, tick]) j
    · simpa using update_reads (·.priority) (by simp [restart, tick]) j
    · simpa using update_reads (·.ticksAtMaxPriority) (by simp [restart, tick]) j
    · simp [scansSince_cons, visitsSince_cons, opens, scans, renews, visits]
  | demoted l lower s₁ s₂ level full above below enque delete =>
    have counts := (relink_counts w enque delete).2.2 supplied
    have ne : lower ≠ l := by
      intro heq
      rw [heq] at below
      omega
    have zero : (k.info i).ticksAtMaxPriority = 0 := by
      by_contra hn
      have := h.bottom i hn
      rw [level] at this
      omega
    have added : ∀ j, (Function.update k.info i (descend (tick (k.info i) l) l) j).addedToMLFQ =
        (k.info j).addedToMLFQ := update_reads (·.addedToMLFQ) (by simp [descend, restart, tick])
    have counter : ∀ j,
        (Function.update k.info i (descend (tick (k.info i) l) l) j).ticksAtMaxPriority =
          (k.info j).ticksAtMaxPriority :=
      update_reads (·.ticksAtMaxPriority) (by simp [descend, restart, tick])
    constructor
    · intro j
      by_cases hj : j = i
      · subst hj
        simp only [note_info, setInfo_info, Function.update_self, note_m, setInfo_m, setStore_m,
          descend, restart, tick, level]
        omega
      · simpa [hj] using h.level j
    · intro j l' hl hlink
      simp only [note_store, setInfo_store, setStore_store, note_info, setInfo_info,
        setStore_info, Function.update_idem] at hl hlink ⊢
      rw [counts l' j]
      by_cases hj : j = i
      · subst hj
        have onto : l' = lower := by
          rw [Function.update_self] at hl
          simp only [descend, restart, tick, level] at hl
          exact Fin.ext (by omega)
        simp [onto, ne]
      · rw [Function.update_of_ne hj] at hl hlink
        simpa [hj] using h.linked j l' hl hlink
    · intro j hj
      have before : 0 < scansSince j k.log := by
        simpa [scansSince_cons, opens, scans] using hj
      simpa using (added j).trans (h.scanned j before)
    · intro j
      simpa [visitsSince_cons, renews, visits] using (counter j).trans (h.counted j)
    · intro j hj
      by_cases hji : j = i
      · subst hji
        simp [descend, restart, tick, zero] at hj
      · simp only [note_info, setInfo_info, setStore_info, Function.update_of_ne hji] at hj ⊢
        exact h.bottom j hj

theorem visit_fresh {last : Level} (w : Wf k.store) (h : Fresh k)
    (ho : VisitOutcome k last i k') (supplied : k'.store.failed = k.store.failed) :
    Fresh k' := by
  cases ho with
  | skipped => exact h
  | aged bottom level =>
    have added : ∀ j, (Function.update k.info i (age (k.info i) last) j).addedToMLFQ =
        (k.info j).addedToMLFQ := update_reads (·.addedToMLFQ) (by simp [age])
    have priority : ∀ j, (Function.update k.info i (age (k.info i) last) j).priority =
        (k.info j).priority := update_reads (·.priority) (by simp [age])
    constructor
    · intro j
      simpa [priority j] using h.level j
    · intro j l
      simpa [priority j, added j] using h.linked j l
    · intro j hj
      have before : 0 < scansSince j k.log := by
        simpa [scansSince_cons, opens, scans] using hj
      simpa using (added j).trans (h.scanned j before)
    · intro j
      by_cases hj : j = i
      · subst hj
        simp [visitsSince_cons, renews, visits, age, h.counted j]
      · simpa [visitsSince_cons, renews, visits, hj, Ne.symm hj] using h.counted j
    · intro j hj
      by_cases hji : j = i
      · subst hji
        simp [age, level, bottom]
      · simp only [note_info, setInfo_info, Function.update_of_ne hji] at hj ⊢
        exact h.bottom j hj
  | boosted s₁ s₂ bottom level due enque delete =>
    have counts := (relink_counts w enque delete).2.2 supplied
    have added : ∀ j, (Function.update k.info i (ascend (age (k.info i) last) last) j).addedToMLFQ
        = (k.info j).addedToMLFQ := update_reads (·.addedToMLFQ) (by simp [ascend, age])
    constructor
    · intro j
      by_cases hj : j = i
      · subst hj
        simp only [note_info, setInfo_info, Function.update_self, note_m, setInfo_m, setStore_m,
          ascend]
        omega
      · simpa [hj] using h.level j
    · intro j l hl hlink
      simp only [note_store, setInfo_store, setStore_store, note_info, setInfo_info,
        setStore_info, Function.update_idem] at hl hlink ⊢
      rw [counts l j]
      by_cases hj : j = i
      · subst hj
        rw [added j] at hlink
        rw [Function.update_self] at hl hlink
        have admitted : (k.info j).addedToMLFQ = true := by simpa [ascend] using hlink
        have before := h.linked j last level (Or.inl admitted)
        have top : l = 0 := Fin.ext hl.symm
        subst top
        by_cases one : (0 : Level) = last
        · subst one
          simpa using before
        · simp [one]
      · rw [Function.update_of_ne hj] at hl hlink
        simpa [hj] using h.linked j l hl hlink
    · intro j hj
      have before : 0 < scansSince j k.log := by
        simpa [scansSince_cons, opens, scans] using hj
      simpa using (added j).trans (h.scanned j before)
    · intro j
      by_cases hj : j = i
      · subst hj
        simp [visitsSince_cons, renews, ascend]
      · simpa [visitsSince_cons, renews, visits, hj, Ne.symm hj] using h.counted j
    · intro j hj
      by_cases hji : j = i
      · subst hji
        simp [ascend] at hj
      · simp only [note_info, setInfo_info, setStore_info, Function.update_of_ne hji] at hj ⊢
        exact h.bottom j hj

theorem admit_fresh (w : Wf k.store) (h : Fresh k) (ho : AdmitOutcome k i k')
    (supplied : k'.store.failed = k.store.failed) : Fresh k' := by
  cases ho with
  | idle => exact h
  | known runnable known =>
    constructor
    · exact h.level
    · exact h.linked
    · intro j hj
      by_cases hji : j = i
      · subst hji
        exact known
      · exact h.scanned j (by simpa [scansSince_cons, opens, scans, Ne.symm hji] using hj)
    · intro j
      simpa [visitsSince_cons, renews, visits] using h.counted j
    · exact h.bottom
  | admitted s₁ runnable new enque =>
    have counts := (enque_counts w enque).2.2 supplied
    have priority : ∀ j,
        (Function.update k.info i { k.info i with addedToMLFQ := true } j).priority =
          (k.info j).priority := update_reads (·.priority) rfl
    have counter : ∀ j,
        (Function.update k.info i { k.info i with addedToMLFQ := true } j).ticksAtMaxPriority =
          (k.info j).ticksAtMaxPriority := update_reads (·.ticksAtMaxPriority) rfl
    constructor
    · intro j
      simpa [priority j] using h.level j
    · intro j l hl hlink
      simp only [note_store, setInfo_store, setStore_store, note_info, setInfo_info,
        setStore_info] at hl hlink ⊢
      rw [priority j] at hl hlink
      rw [counts l j]
      by_cases hj : j = i
      · subst hj
        by_cases top : l = 0
        · simp [top]
        · have low : 0 < (k.info j).priority := by
            rw [hl]
            exact Nat.pos_of_ne_zero fun heq => top (Fin.ext heq)
          have := h.linked j l hl (Or.inr low)
          omega
      · rw [Function.update_of_ne hj] at hlink
        have := h.linked j l hl hlink
        omega
    · intro j hj
      by_cases hji : j = i
      · subst hji
        simp
      · have before : 0 < scansSince j k.log := by
          simpa [scansSince_cons, opens, scans, Ne.symm hji] using hj
        simpa [hji] using h.scanned j before
    · intro j
      simpa [visitsSince_cons, renews, visits] using (counter j).trans (h.counted j)
    · intro j hj
      simp only [note_info, setInfo_info, setStore_info] at hj ⊢
      rw [counter j] at hj
      rw [priority j]
      exact h.bottom j hj

theorem reads_dispatched (i j : Slot) (state : ProcState) (log : List Mark) :
    scansSince i (.dispatched j state :: log) = scansSince i log ∧
      visitsSince i (.dispatched j state :: log) = visitsSince i log := by
  simp [scansSince_cons, visitsSince_cons, opens, scans, renews, visits]

theorem step_fresh {s t : Machine} {e : Event} (sound : Sound s.kernel) (hs : Fresh s.kernel)
    (same : Continues s e) (supplied : Supplied s e) (h : step s e = .ok t) :
    Fresh t.kernel := by
  have failed := supplied t h
  cases step_effect h with
  | iterated flag hi =>
    refine iteration_supplied sound.wf hs (fun i k₁ b _ _ hc => charge_fresh sound.wf hs hc)
      ?five (fun k i k' w hk ho => admit_fresh w hk ho) ?switch hi failed
    case five =>
      intro k k' w hk h
      refine ruleFive_supplied (fun k last i k' w hk ho => visit_fresh w hk ho)
        (fun k hk => ?_) w hk h
      refine hk.same rfl rfl (fun _ => rfl) (fun _ => rfl) (fun _ => rfl) fun j => ?_
      simp [scansSince_cons, visitsSince_cons, opens, scans, renews, visits]
    case switch =>
      intro k p hk
      refine hk.same (dispatch_m k p) (by rw [dispatch_store]) (fun j => by rw [dispatch_info])
        (fun j => by rw [dispatch_info]) (fun j => by rw [dispatch_info]) fun j => ?_
      exact ⟨dispatch_reads (fun i state log => (reads_dispatched j i state log).1) k p,
        dispatch_reads (fun i state log => (reads_dispatched j i state log).2) k p⟩
  | returned => exact hs
  | quiet other q =>
    refine hs.same q.m (by rw [q.store]) (fun j => by rw [q.info]) (fun j => by rw [q.info])
      (fun j => by rw [q.info]) fun j => ?_
    exact ⟨quiet_reads (fun i state log => (reads_dispatched j i state log).1) q,
      quiet_reads (fun i state log => (reads_dispatched j i state log).2) q⟩
  | @recycled e k f t j others fresh origin =>
    have r := recycled_of_table others fresh
    have levels : 1 ≤ k.m := by
      have := hs.level j
      simp only at this
      omega
    constructor
    · intro i
      by_cases hij : i = j
      · rw [hij, r.fresh, r.m]
        simp only [MLFQInfoReport.zero]
        omega
      · rw [r.other_info hij, r.m]
        exact hs.level i
    · intro i l
      by_cases hij : i = j
      · rw [hij, r.fresh]
        rintro - (added | low)
        · cases added
        · exact (Nat.lt_irrefl 0 low).elim
      · rw [r.other_info hij, r.store]
        exact hs.linked i l
    · intro i
      rw [r.log, scansSince_cons]
      by_cases hij : i = j
      · simp [hij, opens]
      · rw [r.other_info hij]
        simpa [opens, scans, Ne.symm hij] using hs.scanned i
    · intro i
      rw [r.log, visitsSince_cons]
      by_cases hij : i = j
      · rw [hij, r.fresh]
        simp [renews, MLFQInfoReport.zero]
      · rw [r.other_info hij]
        simpa [renews, visits, Ne.symm hij] using hs.counted i
    · intro i
      by_cases hij : i = j
      · rw [hij, r.fresh]
        exact fun hn => (hn rfl).elim
      · rw [r.other_info hij, r.m]
        exact hs.bottom i
  | started m n flag =>
    have := same m n rfl
    rw [flag] at this
    cases this
  | stopped flag =>
    obtain ⟨hm, -, -, hstore, hlog⟩ := stop_running flag
    refine hs.same hm (by rw [hstore]) (fun j => by rw [stop_info]) (fun j => by rw [stop_info])
      (fun j => by rw [stop_info]) fun j => ?_
    rw [hlog]
    simp [scansSince_cons, visitsSince_cons, opens, scans, renews, visits]
  | lent =>
    exact hs.same rfl rfl (fun _ => rfl) (fun _ => rfl) (fun _ => rfl) fun _ => ⟨rfl, rfl⟩
  | repaid =>
    exact hs.same rfl rfl (fun _ => rfl) (fun _ => rfl) (fun _ => rfl) fun _ => ⟨rfl, rfl⟩

theorem start_fresh {s : Machine} (idle : s.kernel.mlfqFlag = false)
    (untouched : Untouched s.kernel) {m : Int} (n : Int) (range : 1 ≤ m) :
    Fresh (session s m n).kernel := by
  obtain ⟨hm, -, -, -, hlog⟩ := start_idle (k := s.kernel) m n idle
  constructor
  · intro i
    rw [session_info, (untouched i).2.1]
    simp only [session, hm]
    omega
  · intro i l _ placed
    rw [session_info, (untouched i).1, (untouched i).2.1] at placed
    rcases placed with added | low
    · cases added
    · exact (Nat.lt_irrefl 0 low).elim
  · intro i
    simp [session, hlog, scansSince_cons, opens]
  · intro i
    rw [session_info, (untouched i).2.2]
    simp [session, hlog, visitsSince_cons, renews]
  · intro i
    rw [session_info, (untouched i).2.2]
    exact fun hn => (hn rfl).elim

/-- Nothing of an earlier session shows in the processes of this one. -/
structure FreshLaw (m : Int) (k : Kernel) : Prop where
  level : ∀ i, ((k.info i).priority : Int) ≤ m - 1
  scanned : ∀ i, 0 < scansSince i k.log → (k.info i).addedToMLFQ = true
  linked : ∀ i, (k.info i).addedToMLFQ = true →
    ∃ l, l.val = (k.info i).priority ∧ i ∈ k.store.queue l
  bottom : ∀ i, (k.info i).ticksAtMaxPriority ≠ 0 → ((k.info i).priority : Int) = m - 1
  counted : ∀ i, (k.info i).ticksAtMaxPriority = visitsSince i k.log

/-- A session that starts when no slot carries MLFQ state, and in which no
allocation fails, is fresh in every state. -/
theorem session_fresh {s : Machine} (reach : Reachable s) (idle : s.kernel.mlfqFlag = false)
    (untouched : Untouched s.kernel) {m : Int} (n : Int) (range : 1 ≤ m ∧ m ≤ mlfqMaxLevel)
    {es : List Event}
    (kept : Meets step (fun s e => Continues s e ∧ Supplied s e) (session s m n) es) :
    ∃ t, run step (session s m n) es = .ok t ∧ FreshLaw m t.kernel := by
  obtain ⟨t, ht, ts, fresh⟩ := session_rule reach idle n range (fun _ _ h => h.1)
    (start_fresh idle untouched n range.1)
    (fun _ _ _ sound fresh hG h => step_fresh sound fresh hG.1 hG.2 h) kept
  refine ⟨t, ht, ?_, fresh.scanned, ?_, ?_, fresh.counted⟩
  · intro i
    rw [← ts.m]
    exact fresh.level i
  · intro i added
    refine ⟨⟨(t.kernel.info i).priority, ts.sound.range i⟩, rfl, ?_⟩
    exact List.count_pos_iff.mp (fresh.linked i _ rfl (Or.inl added))
  · intro i hn
    rw [← ts.m]
    exact fresh.bottom i hn

/-- The first process is admitted, runs through its quantum in the top queue and is
counted at the bottom level. -/
theorem session_fresh_first :
    ∃ t, run step (session (boot [0, 1, 2, 3]) 2 5)
        [.iterate (select none), .yield 0, .iterate (select none), .yield 0,
          .iterate (select none), .iterate (select none)] = .ok t ∧
      FreshLaw 2 t.kernel := by
  refine session_fresh (boot_reachable (by decide)) rfl ?_ 5 (by decide) (by decide +kernel)
  intro i
  rw [boot_info]
  exact ⟨rfl, rfl, rfl⟩

/-- A session with two queues, and then one with a single queue. -/
def secondRun : List Event :=
  [.rr 0, .startMLFQ 2 100, .yield 0, .iterate (select none), .yield 0, .iterate (select none),
    .yield 0, .iterate (select none), .iterate (select none), .stopMLFQ, .yield 0,
    .iterate (select none), .rr 0, .startMLFQ 1 100, .yield 0, .iterate (select none)]

/-- In the second session the first process is flagged as admitted and linked
nowhere, at level `m`, and with the bottom-level count of the first session. -/
theorem state_carried_over :
    Yields (run step (boot [0, 1, 2, 3]) secondRun) fun s =>
      s.kernel.store.failed = 0 ∧ (s.kernel.info 0).priority = s.kernel.m ∧
        (s.kernel.info 0).ticksAtMaxPriority = 1 ∧ (s.kernel.info 0).addedToMLFQ = true ∧
        0 < scansSince 0 s.kernel.log ∧ ∀ l, s.kernel.store.queue l = [] := by
  decide +kernel

end FreshSessions
