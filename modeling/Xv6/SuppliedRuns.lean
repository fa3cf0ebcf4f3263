import Xv6.LevelBounds

/-!
# Runs in which every allocation succeeds

`mlfq_enque` drops its process without a word when `kalloc` has no page. The
store counts those refusals and never takes one back, so a step that leaves the
count alone has enqueued every process it meant to. The rules of this module
hand that fact to each block of an iteration, and describe what the two queue
operations then do to the number of elements that point at a process.
-/

namespace SuppliedRuns

open ProcTable QueueStore FeedbackScheduler SchedulerRuns SchedulerBlocks LevelBounds
open EventRuns Outcomes

/-- No `kalloc` of `mlfq_enque` fails in the step. -/
def Supplied (s : Machine) (e : Event) : Prop :=
  ∀ t, step s e = .ok t → t.kernel.store.failed = s.kernel.store.failed

instance (s : Machine) (e : Event) : Decidable (Supplied s e) :=
  match h : step s e with
  | .ok t => decidable_of_iff (t.kernel.store.failed = s.kernel.store.failed)
      ⟨fun same _ ht => by cases h.symm.trans ht; exact same, fun all => all t h⟩
  | .error _ => isTrue fun _ ht => nomatch h.symm.trans ht

/-- No slot carries MLFQ state. -/
def Untouched (k : Kernel) : Prop := ∀ i, (k.info i).addedToMLFQ = false ∧
  (k.info i).priority = 0 ∧ (k.info i).ticksAtMaxPriority = 0

/-- A session begins with empty queues, and with the processes as they are. -/
theorem session_queue {s : Machine} (idle : s.kernel.mlfqFlag = false) (m n : Int) (l : Level) :
    (session s m n).kernel.store.queue l = [] := by
  have empty : (session s m n).kernel.store.head l = none := by
    simp only [session, (start_idle m n idle).2.2.2.1]
  simp only [Store.queue, Store.elements, empty]
  cases (session s m n).kernel.store.taken.length <;> rfl

theorem session_info (s : Machine) (m n : Int) :
    (session s m n).kernel.info = s.kernel.info := start_info m n

theorem enque_counts {s t : Store} {l : Level} {i : Slot} (w : Wf s)
    (h : mlfqEnque s l i = .ok t) :
    Wf t ∧ s.failed ≤ t.failed ∧ (t.failed = s.failed → ∀ l' j,
      (t.queue l').count j = (s.queue l').count j + if j = i ∧ l' = l then 1 else 0) := by
  obtain ⟨wt, ⟨-, rfl, -⟩ | ⟨hq, hf, -⟩⟩ := enque_effect w h
  · refine ⟨wt, Nat.le_succ _, fun same => ?_⟩
    simp [Store.refused] at same
  · refine ⟨wt, hf.ge, fun _ l' j => ?_⟩
    rw [hq]
    by_cases hl : l' = l
    · subst hl
      by_cases hj : j = i
      · subst hj
        simp
      · simp [hj, Ne.symm hj]
    · simp [hl]

theorem delete_counts {s t : Store} {l : Level} {i : Slot} (w : Wf s)
    (h : mlfqDelete s l i = .ok t) :
    Wf t ∧ t.failed = s.failed ∧ ∀ l' j,
      (t.queue l').count j = (s.queue l').count j - if j = i ∧ l' = l then 1 else 0 := by
  obtain ⟨wt, hq, hf, -, -⟩ := delete_effect w h
  refine ⟨wt, hf, fun l' j => ?_⟩
  rw [hq]
  by_cases hl : l' = l
  · subst hl
    by_cases hj : j = i
    · subst hj
      simp
    · simp [hj]
  · simp [hl]

/-- A demotion or a boost: enqueue in one queue, then delete from another. -/
theorem relink_counts {s s₁ t : Store} {onto off : Level} {i : Slot} (w : Wf s)
    (enque : mlfqEnque s onto i = .ok s₁) (delete : mlfqDelete s₁ off i = .ok t) :
    Wf t ∧ s.failed ≤ t.failed ∧ (t.failed = s.failed → ∀ l j,
      (t.queue l).count j = (s.queue l).count j + (if j = i ∧ l = onto then 1 else 0) -
        if j = i ∧ l = off then 1 else 0) := by
  obtain ⟨w₁, grown, counts₁⟩ := enque_counts w enque
  obtain ⟨wt, same, counts⟩ := delete_counts w₁ delete
  refine ⟨wt, same ▸ grown, fun supplied l j => ?_⟩
  rw [counts l j, counts₁ (same.symm.trans supplied) l j]

theorem charge_failed {k k' : Kernel} {i : Slot} {b : Bool} (w : Wf k.store)
    (h : ChargeOutcome k i k' b) : Wf k'.store ∧ k.store.failed ≤ k'.store.failed := by
  cases h with
  | within => exact ⟨w, le_rfl⟩
  | spent => exact ⟨w, le_rfl⟩
  | demoted l lower s₁ s₂ level full above below enque delete =>
    have counts := relink_counts w enque delete
    exact ⟨counts.1, counts.2.1⟩

theorem visit_failed {k k' : Kernel} {last : Level} {i : Slot} (w : Wf k.store)
    (h : VisitOutcome k last i k') : Wf k'.store ∧ k.store.failed ≤ k'.store.failed := by
  cases h with
  | skipped => exact ⟨w, le_rfl⟩
  | aged => exact ⟨w, le_rfl⟩
  | boosted s₁ s₂ bottom level due enque delete =>
    have counts := relink_counts w enque delete
    exact ⟨counts.1, counts.2.1⟩

theorem admit_failed {k k' : Kernel} {i : Slot} (w : Wf k.store) (h : AdmitOutcome k i k') :
    Wf k'.store ∧ k.store.failed ≤ k'.store.failed := by
  cases h with
  | idle => exact ⟨w, le_rfl⟩
  | known => exact ⟨w, le_rfl⟩
  | admitted s₁ runnable new enque =>
    have counts := enque_counts w enque
    exact ⟨counts.1, counts.2.1⟩

/-- `I` holds unless an allocation has failed since the count was `c`. -/
def Unless (c : Nat) (I : Kernel → Prop) (k : Kernel) : Prop :=
  Wf k.store ∧ c ≤ k.store.failed ∧ (k.store.failed = c → I k)

/-- A block that keeps `I` when it is supplied. -/
theorem Unless.block {c : Nat} {I : Kernel → Prop} {k k' : Kernel} (h : Unless c I k)
    (grown : Wf k'.store ∧ k.store.failed ≤ k'.store.failed)
    (keep : I k → k'.store.failed = k.store.failed → I k') : Unless c I k' := by
  obtain ⟨-, low, hI⟩ := h
  refine ⟨grown.1, low.trans grown.2, fun same => ?_⟩
  have before : k.store.failed = c := by
    have := grown.2
    omega
  exact keep (hI before) (same.trans before.symm)

theorem ruleFive_failed {k k' : Kernel} (w : Wf k.store) (h : ruleFive k = .ok k') :
    Wf k'.store ∧ k.store.failed ≤ k'.store.failed := by
  refine ruleFive_keeps (I := fun r => Wf r.store ∧ k.store.failed ≤ r.store.failed) ?_
    (fun _ hr => hr) ⟨w, le_rfl⟩ h
  rintro r last i r' ⟨wr, low⟩ ho
  have grown := visit_failed wr ho
  exact ⟨grown.1, low.trans grown.2⟩

/-- The visits of a pass under supply. -/
theorem ruleFive_supplied {I : Kernel → Prop}
    (visit : ∀ k last i k', Wf k.store → I k → VisitOutcome k last i k' →
      k'.store.failed = k.store.failed → I k')
    (pass : ∀ k, I k → I (k.note .passed)) {k k' : Kernel} (w : Wf k.store) (start : I k)
    (h : ruleFive k = .ok k') (supplied : k'.store.failed = k.store.failed) : I k' := by
  have kept : Unless k.store.failed I k' := by
    refine ruleFive_keeps (fun k last i k' hk ho => ?_) (fun k hk => ?_)
      ⟨w, le_rfl, fun _ => start⟩ h
    · exact hk.block (visit_failed hk.1 ho) fun hI same => visit k last i k' hk.1 hI ho same
    · exact ⟨hk.1, hk.2.1, fun same => pass k (hk.2.2 same)⟩
  exact kept.2.2 supplied

/-- The iteration rule under supply: each block may use that its own
allocations have succeeded. -/
theorem iteration_supplied {I : Kernel → Prop} {choose : Selection} {k k' : Kernel}
    {f f' : Frame} (w : Wf k.store) (start : I k)
    (charge : ∀ i k₁ b, f.p = some i →
      ((k.proc i).state = .runnable ∨ (k.proc i).state = .running) →
      ChargeOutcome k i k₁ b → k₁.store.failed = k.store.failed → I k₁)
    (five : ∀ k k', Wf k.store → I k → ruleFive k = .ok k' →
      k'.store.failed = k.store.failed → I k')
    (scan : ∀ k i k', Wf k.store → I k → AdmitOutcome k i k' →
      k'.store.failed = k.store.failed → I k')
    (switch : ∀ k p, I k → I (dispatch k p))
    (h : iteration choose k f = .ok (k', f'))
    (supplied : k'.store.failed = k.store.failed) : I k' := by
  have start' : Unless k.store.failed I k := ⟨w, le_rfl, fun _ => start⟩
  rcases iteration_parts h with ⟨i, hp, hs, hc, -⟩ | ⟨k₁, k₂, k₃, h₁, h₂, h₃, -, rfl⟩
  · exact charge i k' true hp hs hc supplied
  · have charged : Unless k.store.failed I k₁ := by
      rcases h₁ with ⟨rfl, -⟩ | ⟨i, hp, hs, hc⟩
      · exact start'
      · exact start'.block (charge_failed w hc) fun _ same => charge i k₁ false hp hs hc same
    have passed : Unless k.store.failed I k₂ :=
      charged.block (ruleFive_failed charged.1 h₂) fun hI same => five k₁ k₂ charged.1 hI h₂ same
    have scanned : Unless k.store.failed I k₃ :=
      admissionScan_keeps (fun k i k' hk ho =>
        hk.block (admit_failed hk.1 ho) fun hI same => scan k i k' hk.1 hI ho same) passed h₃
    rw [dispatch_store] at supplied
    exact switch k₃ _ (scanned.2.2 supplied)

end SuppliedRuns
