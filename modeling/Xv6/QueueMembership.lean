import Xv6.SuppliedRuns

/-!
# Queue elements and process fields

Within a session every queue element should point at a live, admitted process
of the queue's level, and every admitted process should have one element. The
admission scan, the demotion and the boost keep the two in step. `freeproc`
does not: it clears `addedToMLFQ` and leaves the element linked. The agreement
therefore holds over the runs in which no admitted slot is freed.
-/

namespace QueueMembership

open ProcTable QueueStore FeedbackScheduler SchedulerRuns SchedulerBlocks LevelBounds
open SuppliedRuns EventRuns Outcomes

/-- Process `i` has one element, in the queue of its level, once admitted. -/
structure Member (m : Int) (k : Kernel) : Prop where
  m : k.m = m
  count : ∀ l i, (k.store.queue l).count i =
    if (k.info i).addedToMLFQ = true ∧ (k.info i).priority = l.val then 1 else 0
  fresh : ∀ i, (k.info i).addedToMLFQ = false → (k.info i).priority = 0
  unused : ∀ i, (k.proc i).state = .unused → (k.info i).addedToMLFQ = false

variable {m : Int} {k k' : Kernel} {i : Slot}

/-- A step that moves nothing between queues and levels. -/
theorem Member.same (h : Member m k) (hm : k'.m = k.m) (queue : k'.store.queue = k.store.queue)
    (added : ∀ j, (k'.info j).addedToMLFQ = (k.info j).addedToMLFQ)
    (priority : ∀ j, (k'.info j).priority = (k.info j).priority)
    (unused : ∀ j, (k'.proc j).state = .unused → (k.info j).addedToMLFQ = false) :
    Member m k' := by
  constructor
  · exact hm.trans h.m
  · intro l j
    rw [queue, added j, priority j]
    exact h.count l j
  · intro j hj
    rw [priority j]
    exact h.fresh j (added j ▸ hj)
  · intro j hj
    rw [added j]
    exact unused j hj

/-- Process `i` goes from level `off` to level `onto`, with its element. -/
theorem Member.move (h : Member m k) (info : MLFQInfoReport) {onto off : Level}
    (ne : onto ≠ off) (hm : k'.m = k.m) (hinfo : k'.info = Function.update k.info i info)
    (was : (k.info i).addedToMLFQ = true ∧ (k.info i).priority = off.val)
    (now : info.addedToMLFQ = true ∧ info.priority = onto.val)
    (state : ∀ j, (k'.proc j).state = (k.proc j).state)
    (counts : ∀ l j, (k'.store.queue l).count j = (k.store.queue l).count j +
      (if j = i ∧ l = onto then 1 else 0) - if j = i ∧ l = off then 1 else 0) :
    Member m k' := by
  constructor
  · exact hm.trans h.m
  · intro l j
    rw [counts l j, h.count l j, hinfo]
    by_cases hj : j = i
    · subst hj
      rw [Function.update_self]
      simp only [was, now, true_and]
      by_cases hon : l = onto
      · subst hon
        have hoff : off.val ≠ l.val := fun heq => ne (Fin.ext heq.symm)
        simp [ne, hoff]
      · by_cases hoff : l = off
        · subst hoff
          have hval : onto.val ≠ l.val := fun heq => hon (Fin.ext heq.symm)
          simp [hon, hval]
        · have hval : onto.val ≠ l.val := fun heq => hon (Fin.ext heq.symm)
          have hval' : off.val ≠ l.val := fun heq => hoff (Fin.ext heq.symm)
          simp [hon, hoff, hval, hval']
    · simp [hj]
  · intro j hj
    rw [hinfo] at hj ⊢
    by_cases hji : j = i
    · subst hji
      rw [Function.update_self, now.1] at hj
      cases hj
    · rw [Function.update_of_ne hji] at hj ⊢
      exact h.fresh j hj
  · intro j hj
    rw [state j] at hj
    rw [hinfo]
    by_cases hji : j = i
    · subst hji
      have := h.unused j hj
      rw [was.1] at this
      cases this
    · rw [Function.update_of_ne hji]
      exact h.unused j hj

/-- A charge keeps the agreement unless it demotes a process not yet admitted. -/
theorem charge_member {b : Bool} (w : Wf k.store) (h : Member m k)
    (admitted : (k.info i).addedToMLFQ = false → (k.info i).ticks 0 = 0)
    (ho : ChargeOutcome k i k' b) (supplied : k'.store.failed = k.store.failed) :
    Member m k' := by
  cases ho with
  | within l =>
    refine h.same rfl rfl (fun j => ?_) (fun j => ?_) fun j hj => h.unused j (by simpa using hj)
    · simpa using update_reads (·.addedToMLFQ) (by simp [tick]) j
    · simpa using update_reads (·.priority) (by simp [tick]) j
  | spent l =>
    refine h.same rfl rfl (fun j => ?_) (fun j => ?_) fun j hj => h.unused j (by simpa using hj)
    · simpa using update_reads (·.addedToMLFQ) (by simp [restart, tick]) j
    · simpa using update_reads (·.priority) (by simp [restart, tick]) j
  | demoted l lower s₁ s₂ level full above below enque delete =>
    have added : (k.info i).addedToMLFQ = true := by
      by_contra hn
      have hn : (k.info i).addedToMLFQ = false := by simpa using hn
      have hl : l = 0 := Fin.ext (level.symm.trans (h.fresh i hn))
      have zero := admitted hn
      subst hl
      simp only [zero, Fin.val_zero] at full
      omega
    have ne : lower ≠ l := by
      intro heq
      rw [heq] at below
      omega
    refine h.move (descend (tick (k.info i) l) l) ne rfl (by simp) ⟨added, level⟩ ⟨?_, ?_⟩
      (fun j => by simp) ((relink_counts w enque delete).2.2 supplied)
    · simpa [descend, restart, tick] using added
    · simp [descend, restart, tick, level, below]

theorem visit_member {last : Level} (range : 2 ≤ m) (w : Wf k.store) (h : Member m k)
    (ho : VisitOutcome k last i k') (supplied : k'.store.failed = k.store.failed) :
    Member m k' := by
  cases ho with
  | skipped => exact h
  | aged =>
    refine h.same rfl rfl (fun j => ?_) (fun j => ?_) fun j hj => h.unused j (by simpa using hj)
    · simpa using update_reads (·.addedToMLFQ) (by simp [age]) j
    · simpa using update_reads (·.priority) (by simp [age]) j
  | boosted s₁ s₂ bottom level due enque delete =>
    have low : 1 ≤ last.val := by
      have := h.m
      omega
    have added : (k.info i).addedToMLFQ = true := by
      by_contra hn
      have := h.fresh i (by simpa using hn)
      omega
    have ne : (0 : Level) ≠ last := by
      intro heq
      rw [← heq] at low
      simp at low
    refine h.move (ascend (age (k.info i) last) last) ne rfl (by simp) ⟨added, level⟩ ⟨?_, ?_⟩
      (fun j => by simp) ((relink_counts w enque delete).2.2 supplied)
    · simpa [ascend, age] using added
    · simp [ascend]

theorem admit_member (w : Wf k.store) (h : Member m k) (ho : AdmitOutcome k i k')
    (supplied : k'.store.failed = k.store.failed) : Member m k' := by
  cases ho with
  | idle => exact h
  | known => exact h.same rfl rfl (fun _ => rfl) (fun _ => rfl) h.unused
  | admitted s₁ runnable new enque =>
    have counts := (enque_counts w enque).2.2 supplied
    have zero := h.fresh i new
    constructor
    · exact h.m
    · intro l j
      simp only [note_store, setInfo_store, setStore_store, note_info, setInfo_info,
        setStore_info]
      rw [counts l j, h.count l j]
      by_cases hj : j = i
      · subst hj
        by_cases hl : l = 0
        · subst hl
          simp [new, zero]
        · have hval : (0 : Nat) ≠ l.val := fun heq => hl (Fin.ext heq.symm)
          simp [new, zero, hl, hval]
      · simp [hj]
    · intro j hj
      by_cases hji : j = i
      · subst hji
        simp at hj
      · simp only [note_info, setInfo_info, setStore_info, Function.update_of_ne hji] at hj ⊢
        exact h.fresh j hj
    · intro j hj
      by_cases hji : j = i
      · subst hji
        simp [runnable] at hj
      · simpa [hji] using h.unused j (by simpa using hj)

theorem dispatch_member (h : Member m k) (p : Option Slot) : Member m (dispatch k p) := by
  refine h.same (dispatch_m k p) (by rw [dispatch_store]) (fun j => by rw [dispatch_info])
    (fun j => by rw [dispatch_info]) fun j hj => ?_
  cases p with
  | none => exact h.unused j hj
  | some i =>
    rw [dispatch_state] at hj
    split at hj
    · cases hj
    · exact h.unused j hj

/-- No iteration demotes a process that has not been admitted, and no `wait`
frees a slot that has. -/
structure Orderly (s : Machine) (e : Event) : Prop where
  charge : ∀ choose i, e = .iterate choose → s.frame.p = some i →
    (s.kernel.info i).addedToMLFQ = false → (s.kernel.info i).ticks 0 = 0
  free : ∀ j, Frees s e j → (s.kernel.info j).addedToMLFQ = false

theorem step_member {s t : Machine} {e : Event} (range : 2 ≤ m) (sound : Sound s.kernel)
    (hs : Member m s.kernel) (same : Continues s e) (supplied : Supplied s e)
    (orderly : Orderly s e) (h : step s e = .ok t) : Member m t.kernel := by
  have failed := supplied t h
  cases step_effect h with
  | @iterated choose k k' f f' flag hi =>
    refine iteration_supplied sound.wf hs
      (fun i k₁ b hp _ hc => charge_member sound.wf hs (orderly.charge choose i rfl hp) hc)
      ?five (fun k i k' w hk ho => admit_member w hk ho) (fun k p hk => dispatch_member hk p)
      hi failed
    case five =>
      intro k k' w hk h
      refine ruleFive_supplied (fun k last i k' w hk ho => visit_member range w hk ho)
        (fun k hk => ?_) w hk h
      exact hk.same rfl rfl (fun _ => rfl) (fun _ => rfl) hk.unused
  | returned => exact hs
  | quiet other q =>
    exact hs.same q.m (by rw [q.store]) (fun j => by rw [q.info]) (fun j => by rw [q.info])
      fun j hj => hs.unused j ((q.unused j).mp hj)
  | @recycled e k f t j others fresh origin =>
    have r := recycled_of_table others fresh
    have was : (k.info j).addedToMLFQ = false := by
      rcases origin with ⟨unused, -⟩ | frees
      · exact hs.unused j unused
      · exact orderly.free j frees
    have level : (k.info j).priority = 0 := hs.fresh j was
    refine hs.same r.m (by rw [r.store]) (fun i => ?_) (fun i => ?_) fun i hi => ?_
    · by_cases hij : i = j
      · rw [hij, r.fresh, was]
        rfl
      · rw [r.other_info hij]
    · by_cases hij : i = j
      · rw [hij, r.fresh, level]
        rfl
      · rw [r.other_info hij]
    · by_cases hij : i = j
      · rw [hij]
        exact was
      · rw [r.others i hij] at hi
        exact hs.unused i hi
  | started m n flag =>
    have := same m n rfl
    rw [flag] at this
    cases this
  | stopped flag =>
    obtain ⟨hm, -, -, hstore, -⟩ := stop_running flag
    exact hs.same hm (by rw [hstore]) (fun j => by rw [stop_info]) (fun j => by rw [stop_info])
      fun j hj => hs.unused j (by rwa [stop_proc] at hj)
  | lent => exact hs.same rfl rfl (fun _ => rfl) (fun _ => rfl) hs.unused
  | repaid => exact hs.same rfl rfl (fun _ => rfl) (fun _ => rfl) hs.unused

/-- No slot has been admitted or has left the top level. -/
def Unplaced (k : Kernel) : Prop :=
  ∀ i, (k.info i).addedToMLFQ = false ∧ (k.info i).priority = 0

theorem session_member {s : Machine} (idle : s.kernel.mlfqFlag = false)
    (unplaced : Unplaced s.kernel) (m n : Int) : Member m (session s m n).kernel := by
  constructor
  · exact (start_idle m n idle).1
  · intro l i
    rw [session_queue idle, session_info]
    simp [(unplaced i).1]
  · intro i _
    rw [session_info]
    exact (unplaced i).2
  · intro i _
    rw [session_info]
    exact (unplaced i).1

/-- The steps over which a session keeps its queues and processes in agreement. -/
def Kept (s : Machine) (e : Event) : Prop := Continues s e ∧ Supplied s e ∧ Orderly s e

/-- Every element points at a live, admitted process of its queue's level, and
every such process has one element over all the queues. -/
structure Agrees (k : Kernel) : Prop where
  element : ∀ l, ∀ a ∈ k.store.elements l,
    (k.proc (k.store.procAt a)).state ≠ .unused ∧
    (k.info (k.store.procAt a)).addedToMLFQ = true ∧
    (k.info (k.store.procAt a)).priority = l.val
  process : ∀ i, (k.proc i).state ≠ .unused → (k.info i).addedToMLFQ = true →
    ∃ l, l.val = (k.info i).priority ∧ (k.store.queue l).count i = 1 ∧
      ∀ l', l' ≠ l → (k.store.queue l').count i = 0

theorem Member.agrees (h : Member m k) (sound : Sound k) : Agrees k := by
  constructor
  · intro l a ha
    have inside : k.store.procAt a ∈ k.store.queue l := List.mem_map_of_mem ha
    have pos := List.count_pos_iff.mpr inside
    rw [h.count l] at pos
    by_cases placed : (k.info (k.store.procAt a)).addedToMLFQ = true ∧
        (k.info (k.store.procAt a)).priority = l.val
    · refine ⟨fun unused => ?_, placed⟩
      have := h.unused _ unused
      rw [placed.1] at this
      cases this
    · rw [if_neg placed] at pos
      omega
  · intro i _ added
    refine ⟨⟨(k.info i).priority, sound.range i⟩, rfl, ?_, fun l' hl => ?_⟩
    · rw [h.count]
      simp [added]
    · rw [h.count, if_neg]
      rintro ⟨-, level⟩
      exact hl (Fin.ext level.symm)

/-- Over the steps that free no admitted slot the queues and the processes of a
session agree in every state. -/
theorem session_agrees {s : Machine} (reach : Reachable s) (idle : s.kernel.mlfqFlag = false)
    (unplaced : Unplaced s.kernel) {m : Int} (n : Int) (range : 2 ≤ m ∧ m ≤ mlfqMaxLevel)
    {es : List Event} (kept : Meets step Kept (session s m n) es) :
    ∃ t, run step (session s m n) es = .ok t ∧ Agrees t.kernel := by
  have keep : ∀ s e t, Sound s.kernel → Member m s.kernel → Kept s e → step s e = .ok t →
      Member m t.kernel := by
    rintro s e t sound member ⟨continues, supplied, orderly⟩ h
    exact step_member range.1 sound member continues supplied orderly h
  obtain ⟨t, ht, ts, member⟩ := session_rule reach idle n ⟨by omega, range.2⟩
    (fun _ _ h => h.1) (session_member idle unplaced m n) keep kept
  exact ⟨t, ht, member.agrees ts.sound⟩

theorem session_agrees_first :
    ∃ t, run step (session (boot [0, 1]) 3 5) [.iterate (select none)] = .ok t ∧
      Agrees t.kernel := by
  refine session_agrees (boot_reachable (by decide)) rfl ?_ 5 (by decide) ⟨⟨?_, ?_, ?_, ?_⟩, ?_⟩
  · intro i
    rw [boot_info]
    exact ⟨rfl, rfl⟩
  · exact continues_iterate _ _
  · decide +kernel
  · rintro choose i - hp
    cases hp
  · rintro j ⟨i, he, -⟩
    cases he
  · intro t _
    trivial

/-- Process 1 is admitted, runs, exits and is reaped within the session. -/
def reapedRun : List Event :=
  [.rr 0, .fork 0 true true, .startMLFQ 3 5, .yield 0, .iterate (select none), .yield 0,
    .iterate (select none), .yield 0, .iterate (select none), .iterate (select none),
    .exit 1 0, .rr 0, .wait 0 true]

/-- The element of process 1 outlives it and points at an `UNUSED` slot. -/
theorem element_outlives_process :
    Yields (run step (boot [0, 1, 2, 3]) reapedRun) fun s =>
      s.kernel.store.failed = 0 ∧
        ∃ a ∈ s.kernel.store.elements 0, (s.kernel.proc (s.kernel.store.procAt a)).state = .unused ∧
          (s.kernel.info (s.kernel.store.procAt a)).addedToMLFQ = false := by
  decide +kernel

end QueueMembership
