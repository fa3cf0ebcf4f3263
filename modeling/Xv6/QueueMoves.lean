import Xv6.PageAccounting

/-!
# Moves between the queues when a page may be missing

The three moves of `MLFQ_scheduler`: the admission of a process, its demotion
and its boost. Each calls `mlfq_enque` and goes on whether or not there was a
page for the element: it marks the process, or unlinks it and changes its
priority.
-/

namespace QueueMoves

open ProcTable QueueStore FeedbackScheduler SchedulerRuns SchedulerBlocks RuleFivePass
open PageAccounting LevelBounds Outcomes

inductive Move where
  | admission
  | demotion
  | boost

/-- The scheduler makes the move of process `i` and comes to `k'`. -/
def Performs (k : Kernel) (i : Slot) : Move → Kernel → Prop
  | .admission, k' => (k.proc i).state = .runnable ∧ (k.info i).addedToMLFQ = false ∧
      admissionTurn k i = .ok k'
  | .demotion, k' => Full k i ∧ ((k.info i).priority : Int) < k.m - 1 ∧
      chargeTick k i = .ok (k', true)
  | .boost, k' => Due k i ∧ ∃ last : Level, (last.val : Int) = k.m - 1 ∧
      i ∈ k.store.queue last ∧ ruleFiveVisit k last i = .ok k'

/-- The process is linked exactly once, in the queue of its priority. -/
def LinkedOnce (k : Kernel) (i : Slot) : Prop :=
  ∀ l, (k.store.queue l).count i = if l.val = (k.info i).priority then 1 else 0

/-- Priority, flag and membership of the process are what they were. -/
structure Unchanged (k k' : Kernel) (i : Slot) : Prop where
  priority : (k'.info i).priority = (k.info i).priority
  flag : (k'.info i).addedToMLFQ = (k.info i).addedToMLFQ
  linked : ∀ l, (k'.store.queue l).count i = (k.store.queue l).count i

/-- All of the move is done when there is a page, and nothing when there is none. -/
def AllOrNothing (k k' : Kernel) (i : Slot) : Prop :=
  if k.store.freelist = [] then Unchanged k k' i else LinkedOnce k' i

/-- A process that is admitted is linked nowhere and begins at the top; one that is
moved is linked at most once, in the queue that it leaves. -/
def Tidy (k : Kernel) (i : Slot) : Move → Prop
  | .admission => (k.info i).priority = 0 ∧ ∀ l, i ∉ k.store.queue l
  | .demotion | .boost =>
    ∀ l, (k.store.queue l).count i ≤ if l.val = (k.info i).priority then 1 else 0

variable {k k' : Kernel} {i : Slot}

theorem count_append_update (queue : Level → List Slot) (onto l : Level) (i : Slot) :
    (Function.update queue onto (queue onto ++ [i]) l).count i =
      (queue l).count i + if l = onto then 1 else 0 := by
  by_cases same : l = onto
  · subst same
    simp
  · simp [same]

theorem count_erase_update (queue : Level → List Slot) (off l : Level) (i : Slot) :
    (Function.update queue off ((queue off).erase i) l).count i =
      (queue l).count i - if l = off then 1 else 0 := by
  by_cases same : l = off
  · subst same
    simp [List.count_erase_self]
  · simp [same]

/-- The links of a process after `mlfq_enque` for it. -/
theorem enque_count {s t : Store} {l : Level} (w : Wf s) (h : mlfqEnque s l i = .ok t) :
    Wf t ∧ ∀ l', (t.queue l').count i =
      (s.queue l').count i + if l' = l ∧ s.freelist ≠ [] then 1 else 0 := by
  obtain ⟨w', ⟨full, -, queue⟩ | ⟨queue, -, -, used⟩⟩ := enque_effect w h
  · exact ⟨w', fun l' => by simp [queue, full]⟩
  · have page : s.freelist ≠ [] := by
      intro empty
      simp [empty] at used
    refine ⟨w', fun l' => ?_⟩
    rw [queue, count_append_update]
    simp [page]

/-- The links of a process after `mlfq_enque` and `mlfq_delete` for it. -/
theorem relink_count {s s₁ t : Store} {onto off : Level} (w : Wf s)
    (enque : mlfqEnque s onto i = .ok s₁) (delete : mlfqDelete s₁ off i = .ok t) (l : Level) :
    (t.queue l).count i =
      ((s.queue l).count i + if l = onto ∧ s.freelist ≠ [] then 1 else 0) -
        if l = off then 1 else 0 := by
  obtain ⟨w₁, count⟩ := enque_count w enque
  obtain ⟨-, queue, -⟩ := delete_effect w₁ delete
  rw [queue, count_erase_update, count]

theorem of_full (full : k.store.freelist = []) : AllOrNothing k k' i ↔ Unchanged k k' i := by
  rw [AllOrNothing, if_pos full]

theorem of_page (page : k.store.freelist ≠ []) : AllOrNothing k k' i ↔ LinkedOnce k' i := by
  rw [AllOrNothing, if_neg page]

theorem top_val : (0 : Level).val = 0 := rfl

theorem admission_iff (w : Wf k.store) (h : Performs k i .admission k') :
    AllOrNothing k k' i ↔ k.store.freelist ≠ [] ∧ Tidy k i .admission := by
  obtain ⟨runnable, fresh, turn⟩ := h
  cases admit_outcome turn with
  | idle asleep => exact absurd runnable asleep
  | known _ added => simp [fresh] at added
  | admitted s₁ _ _ enque =>
    obtain ⟨-, count⟩ := enque_count w enque
    by_cases page : k.store.freelist = []
    · rw [of_full page]
      refine iff_of_false (fun same => ?_) fun h => h.1 page
      -- the process has been marked although it is in no queue
      have flag := same.flag
      simp [fresh] at flag
    · rw [of_page page]
      simp only [LinkedOnce, Tidy, page, ne_eq, not_false_eq_true, true_and, note_store,
        setInfo_store, setStore_store, note_info, setInfo_info, setStore_info,
        Function.update_self, count, and_true, Fin.ext_iff, top_val, ← List.count_eq_zero]
      constructor
      · intro once
        have level : (k.info i).priority = 0 := by
          have top := once 0
          rw [top_val] at top
          split_ifs at top <;> omega
        refine ⟨level, fun l => ?_⟩
        have here := once l
        rw [level] at here
        omega
      · rintro ⟨level, none⟩ l
        rw [none l, level, Nat.zero_add]

theorem demotion_iff (w : Wf k.store) (h : Performs k i .demotion k') :
    AllOrNothing k k' i ↔ k.store.freelist ≠ [] ∧ Tidy k i .demotion := by
  obtain ⟨-, above, charge⟩ := h
  cases chargeTick_outcome charge with
  | spent l level full bottom => omega
  | demoted l lower s₁ s₂ level full _ below enque delete =>
    have count := relink_count w enque delete
    have priority : (descend (tick (k.info i) l) l).priority = (k.info i).priority + 1 := rfl
    by_cases page : k.store.freelist = []
    · rw [of_full page]
      refine iff_of_false (fun same => ?_) fun h => h.1 page
      have kept := same.priority
      simp only [note_info, setInfo_info, Function.update_self, priority] at kept
      omega
    · rw [of_page page]
      simp only [LinkedOnce, Tidy, page, ne_eq, not_false_eq_true, true_and, note_store,
        setInfo_store, setStore_store, note_info, setInfo_info, Function.update_self, count,
        priority, and_true, Fin.ext_iff, level, below]
      refine forall_congr' fun here => ?_
      split_ifs <;> omega

theorem boost_iff (w : Wf k.store) (h : Performs k i .boost k') :
    AllOrNothing k k' i ↔ k.store.freelist ≠ [] ∧ Tidy k i .boost := by
  obtain ⟨due, last, bottom, member, visit⟩ := h
  have linked := List.count_pos_iff.mpr member
  cases visit_outcome bottom visit with
  | skipped elsewhere =>
    have := due.1
    omega
  | aged _ level patient =>
    have := due.2
    omega
  | boosted s₁ s₂ _ level _ enque delete =>
    have count := relink_count w enque delete
    have priority : (ascend (age (k.info i) last) last).priority = 0 := rfl
    by_cases page : k.store.freelist = []
    · rw [of_full page]
      refine iff_of_false (fun same => ?_) fun h => h.1 page
      have gone := same.linked last
      simp only [note_store, setInfo_store, setStore_store, count, page, ne_eq,
        not_true_eq_false, and_false, if_false, if_true] at gone
      omega
    · rw [of_page page]
      simp only [LinkedOnce, Tidy, page, ne_eq, not_false_eq_true, true_and, note_store,
        setInfo_store, setStore_store, note_info, setInfo_info, Function.update_self, count,
        priority, and_true, Fin.ext_iff, level, top_val]
      refine forall_congr' fun here => ?_
      by_cases old : here = last
      · subst old
        split_ifs <;> omega
      · have apart : here.val ≠ last.val := fun same => old (Fin.ext same)
        split_ifs <;> omega

/-- A move is all or nothing exactly when there is a page for the new element and the
process is linked nowhere but, at most once, in the queue it leaves. -/
theorem all_or_nothing_iff {move : Move} (w : Wf k.store) (h : Performs k i move k') :
    AllOrNothing k k' i ↔ k.store.freelist ≠ [] ∧ Tidy k i move := by
  cases move with
  | admission => exact admission_iff w h
  | demotion => exact demotion_iff w h
  | boost => exact boost_iff w h

/-- Process 3 is runnable and in no queue, and these pages are free. -/
def arrival (pages : List Addr) : Kernel where
  proc := Function.update (fun _ => .boot) 3 { Proc.boot with state := .runnable }
  nextpid := 1
  mlfqFlag := true
  m := 2
  n := 5
  store := emptyStore pages
  log := []

theorem arrival_performs (pages : List Addr) (nodup : pages.Nodup) :
    Wf (arrival pages).store ∧ ∃ k', Performs (arrival pages) 3 .admission k' := by
  have w : Wf (arrival pages).store := (boot_sound nodup).wf
  obtain ⟨s₁, enque⟩ := enque_total w 0 3
  have runnable : ((arrival pages).proc 3).state = .runnable := by simp [arrival]
  have fresh : ((arrival pages).info 3).addedToMLFQ = false := by
    simp [arrival, Kernel.info, Proc.boot, MLFQInfoReport.zero]
  have turn : ∃ k', admissionTurn (arrival pages) 3 = .ok k' := by
    simp only [admissionTurn, if_pos runnable, fresh, enque]
    exact ⟨_, rfl⟩
  exact ⟨w, turn.imp fun k' turn => ⟨runnable, fresh, turn⟩⟩

theorem all_or_nothing_iff_arrival :
    ∃ k', Performs (arrival [7]) 3 .admission k' ∧ AllOrNothing (arrival [7]) k' 3 := by
  obtain ⟨w, k', performs⟩ := arrival_performs [7] (List.nodup_singleton 7)
  refine ⟨k', performs, (all_or_nothing_iff w performs).mpr ⟨nofun, rfl, fun l => ?_⟩⟩
  have empty : (arrival [7]).store.queue l = [] := rfl
  simp [empty]

/-- Without a page the process is marked as added and is in no queue. -/
theorem arrival_marked_unlinked :
    ∃ k', Performs (arrival []) 3 .admission k' ∧ ¬ AllOrNothing (arrival []) k' 3 := by
  obtain ⟨w, k', performs⟩ := arrival_performs [] List.nodup_nil
  exact ⟨k', performs, fun all => ((admission_iff w performs).mp all).1 rfl⟩

end QueueMoves
