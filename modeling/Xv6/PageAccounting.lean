import Mathlib.Algebra.BigOperators.Group.Finset.Piecewise
import Mathlib.Data.Fintype.Basic
import Xv6.SuppliedRuns

/-!
# The pages of the queue elements

`mlfq_enque` takes a page for every element. `mlfq_deque` gives the page back,
but the scheduler never calls it: `mlfq_delete` only unlinks, and `startMLFQ`
drops the lists by clearing their heads. The pages that are taken and linked
nowhere never become fewer, and a run leaks none exactly when it demotes and
boosts no linked process and never starts a session over a nonempty queue.
-/

namespace PageAccounting

open ProcTable QueueStore FeedbackScheduler SchedulerRuns SchedulerBlocks RuleFivePass
open LevelBounds SuppliedRuns EventRuns Outcomes

/-- The number of elements linked in all the queues. -/
def linked (s : Store) : Nat := Finset.univ.sum fun l => (s.elements l).length

/-- The pages taken and not given back, less the elements that are linked. -/
def leak (s : Store) : Int := s.taken.length - linked s

theorem linked_of_update {s t : Store} {l : Level} {L : List Slot}
    (h : t.queue = Function.update s.queue l L) :
    linked t + (s.queue l).length = linked s + L.length := by
  have lengths : ∀ r : Store, linked r = Finset.univ.sum fun l => (r.queue l).length := by
    intro r
    simp [linked, Store.queue]
  have moved : (fun l' => (t.queue l').length) =
      Function.update (fun l' => (s.queue l').length) l L.length := by
    funext l'
    by_cases hl : l' = l
    · subst hl
      simp [h]
    · simp [h, hl]
  have split := Finset.add_sum_erase Finset.univ (fun l' => (s.queue l').length)
    (Finset.mem_univ l)
  rw [lengths t, lengths s, moved, Finset.sum_update_of_mem (Finset.mem_univ l),
    Finset.sdiff_singleton_eq_erase]
  omega

theorem enque_leak {s t : Store} {l : Level} {i : Slot} (w : Wf s)
    (h : mlfqEnque s l i = .ok t) :
    Wf t ∧ leak t = leak s ∧ (∀ l' j, j ∈ s.queue l' → j ∈ t.queue l') ∧
      ∀ l', l' ≠ l → t.queue l' = s.queue l' := by
  obtain ⟨wt, ⟨-, rfl, hq⟩ | ⟨hq, -, htaken, -⟩⟩ := enque_effect w h
  · exact ⟨wt, rfl, fun l' j hj => hj, fun l' _ => rfl⟩
  · have count := linked_of_update hq
    rw [List.length_append, List.length_singleton] at count
    refine ⟨wt, ?_, fun l' j hj => ?_, fun l' hl => by rw [hq, Function.update_of_ne hl]⟩
    · unfold leak
      omega
    · rw [hq]
      by_cases hl : l' = l
      · subst hl
        simp [hj]
      · simpa [hl] using hj

/-- Deleting an element that is linked leaks its page. -/
theorem delete_leak {s t : Store} {l : Level} {i : Slot} (w : Wf s)
    (h : mlfqDelete s l i = .ok t) :
    Wf t ∧ leak t = leak s + if i ∈ s.queue l then 1 else 0 := by
  obtain ⟨wt, hq, -, htaken, -⟩ := delete_effect w h
  have count := linked_of_update hq
  refine ⟨wt, ?_⟩
  unfold leak
  rw [htaken]
  by_cases hi : i ∈ s.queue l
  · have shorter := List.length_erase_of_mem hi
    have pos := List.length_pos_of_mem hi
    rw [if_pos hi]
    omega
  · rw [List.erase_of_not_mem hi] at count
    rw [if_neg hi]
    omega

/-- `mlfq_deque` gives the page of the element back. -/
theorem deque_leak {s : Store} (w : Wf s) (l : Level) :
    Wf (mlfqDeque s l).2 ∧ leak (mlfqDeque s l).2 = leak s ∧
      (mlfqDeque s l).1 = (s.queue l).head? ∧
      (mlfqDeque s l).2.queue = Function.update s.queue l (s.queue l).tail := by
  obtain ⟨q, h⟩ := w
  by_cases empty : q l = []
  · have head : s.head l = none := by rw [h.head l, empty, List.head?_nil]
    have value : mlfqDeque s l = (none, s) := by simp only [mlfqDeque, head]
    have queue : s.queue l = [] := by rw [h.queue_eq, empty, List.map_nil]
    rw [value, queue]
    refine ⟨⟨q, h⟩, rfl, rfl, ?_⟩
    rw [List.tail_nil, ← queue, Function.update_eq_self]
  · obtain ⟨a, rest, split⟩ := List.exists_cons_of_ne_nil empty
    obtain ⟨result, holds, procAt, -, taken⟩ := mlfqDeque_spec h split
    have queue : s.queue l = s.procAt a :: rest.map s.procAt := by
      rw [h.queue_eq, split, List.map_cons]
    have left : (mlfqDeque s l).2.queue = Function.update s.queue l (rest.map s.procAt) := by
      funext l'
      rw [holds.queue_eq, procAt]
      by_cases hl : l' = l
      · subst hl
        simp
      · simp [hl, h.queue_eq]
    refine ⟨⟨_, holds⟩, ?_, ?_, ?_⟩
    · have count := linked_of_update left
      have mem : a ∈ s.taken := h.taken l a (by simp [split])
      have shorter := List.length_erase_of_mem mem
      have pos := List.length_pos_of_mem mem
      rw [queue, List.length_cons] at count
      unfold leak
      rw [taken]
      omega
    · rw [result, queue, List.head?_cons]
    · rw [left, queue, List.tail_cons]

/-- A boost or a demotion leaks a page for an element that it unlinks. -/
theorem relink_leak {s s₁ t : Store} {onto off : Level} {i : Slot} (w : Wf s)
    (enque : mlfqEnque s onto i = .ok s₁) (delete : mlfqDelete s₁ off i = .ok t) :
    Wf t ∧ leak s ≤ leak t ∧ (i ∈ s.queue off → leak t = leak s + 1) ∧
      (onto ≠ off → i ∉ s.queue off → leak t = leak s) := by
  obtain ⟨w₁, same, grown, others⟩ := enque_leak w enque
  obtain ⟨wt, moved⟩ := delete_leak w₁ delete
  refine ⟨wt, ?_, ?_, ?_⟩
  · rw [moved, same]
    split <;> omega
  · intro here
    rw [moved, if_pos (grown off i here), same]
  · intro ne away
    rw [others off ne.symm] at moved
    rw [moved, if_neg away, same, add_zero]

variable {k k' : Kernel} {i : Slot} {last : Level}

/-- The charge would use up the quantum of process `i`. -/
def Full (k : Kernel) (i : Slot) : Prop :=
  ∃ l : Level, l.val = (k.info i).priority ∧ 2 * (l.val + 1) ≤ (k.info i).ticks l + 1

/-- The charge would unlink process `i` from the queue of its level. -/
def Unlinks (k : Kernel) (i : Slot) : Prop :=
  Full k i ∧ ((k.info i).priority : Int) < k.m - 1 ∧
    ∃ l : Level, l.val = (k.info i).priority ∧ i ∈ k.store.queue l

theorem charge_leak {b : Bool} (w : Wf k.store) (h : ChargeOutcome k i k' b) :
    Wf k'.store ∧ (b = true ↔ Full k i) ∧ leak k.store ≤ leak k'.store ∧
      (leak k'.store = leak k.store ↔ ¬ Unlinks k i) := by
  cases h with
  | within l level room =>
    have short : ¬ Full k i := by
      rintro ⟨l', hl', full⟩
      have same : l' = l := Fin.ext (hl'.trans level)
      rw [same] at full
      omega
    refine ⟨w, ?_, le_rfl, ?_⟩
    · simp [short]
    · exact ⟨fun _ hu => short hu.1, fun _ => rfl⟩
  | spent l level full bottom =>
    have whole : Full k i := ⟨l, level.symm, full⟩
    refine ⟨w, ?_, le_rfl, ?_⟩
    · simp [whole]
    · refine ⟨fun _ hu => ?_, fun _ => rfl⟩
      have := hu.2.1
      omega
  | demoted l lower s₁ s₂ level full above below enque delete =>
    have whole : Full k i := ⟨l, level.symm, full⟩
    have ne : lower ≠ l := by
      intro heq
      rw [heq] at below
      omega
    obtain ⟨ws, low, linked, apart⟩ := relink_leak w enque delete
    refine ⟨ws, by simp [whole], low, ?_⟩
    by_cases here : i ∈ k.store.queue l
    · have moved := linked here
      have unlinks : Unlinks k i := ⟨whole, by omega, l, level.symm, here⟩
      refine ⟨fun heq => ?_, fun hn => (hn unlinks).elim⟩
      have : leak s₂ = leak k.store := heq
      omega
    · refine ⟨fun _ hu => ?_, fun _ => apart ne here⟩
      obtain ⟨-, -, l', hl', here'⟩ := hu
      have same : l' = l := Fin.ext (hl'.trans level)
      exact here (same ▸ here')

theorem admit_leak (w : Wf k.store) (h : AdmitOutcome k i k') :
    Wf k'.store ∧ leak k'.store = leak k.store := by
  cases h with
  | idle => exact ⟨w, rfl⟩
  | known => exact ⟨w, rfl⟩
  | admitted s₁ runnable new enque =>
    obtain ⟨w₁, same, -, -⟩ := enque_leak w enque
    exact ⟨w₁, same⟩

/-- No process would reach `n` by the visits to its elements in one pass. -/
def Patient (k : Kernel) (last : Level) : Prop :=
  ∀ i, (k.info i).priority = last.val → (k.store.queue last).count i = 0 ∨
    ((k.info i).ticksAtMaxPriority : Int) + (k.store.queue last).count i < k.n

/-- A pass that has moved no process yet and has still to visit `rest`. -/
structure Unmoved (k₁ k : Kernel) (last : Level) (rest : List Slot) : Prop where
  limit : k.n = k₁.n
  queue : k.store.queue last = k₁.store.queue last
  priority : ∀ i, (k.info i).priority = (k₁.info i).priority
  counted : ∀ i, (k.info i).priority = last.val →
    (k.info i).ticksAtMaxPriority + rest.count i =
      (k₁.info i).ticksAtMaxPriority + (k.store.queue last).count i
  below : ∀ i, (k.info i).priority = last.val →
    rest.count i < (k.store.queue last).count i → ((k.info i).ticksAtMaxPriority : Int) < k.n

theorem visit_leak (w : Wf k.store) (h : VisitOutcome k last i k') :
    Wf k'.store ∧ leak k.store ≤ leak k'.store := by
  cases h with
  | skipped => exact ⟨w, le_rfl⟩
  | aged => exact ⟨w, le_rfl⟩
  | boosted s₁ s₂ bottom level due enque delete =>
    obtain ⟨ws, low, -, -⟩ := relink_leak w enque delete
    exact ⟨ws, low⟩

/-- A visit moves nobody, or it leaks and the pass was not a patient one. -/
theorem visit_unmoved {k₁ : Kernel} {rest : List Slot} (w : Wf k.store)
    (h : Unmoved k₁ k last (i :: rest)) (bottom : (last.val : Int) = k.m - 1)
    (inside : i ∈ k.store.queue last) (ho : VisitOutcome k last i k') :
    leak k.store < leak k'.store ∧ ¬ Patient k₁ last ∨
      leak k'.store = leak k.store ∧ Unmoved k₁ k' last (ahead k last i rest) := by
  cases ho with
  | skipped elsewhere =>
    have stays : ahead k last i rest = rest := by
      rw [ahead, if_neg]
      rintro ⟨⟨level, -⟩, -⟩
      omega
    rw [stays]
    refine Or.inr ⟨rfl, h.limit, h.queue, h.priority, ?_, ?_⟩
    · intro j level
      have hj : j ≠ i := fun heq => elsewhere (heq ▸ level)
      simpa [List.count_cons, Ne.symm hj] using h.counted j level
    · intro j level
      have hj : j ≠ i := fun heq => elsewhere (heq ▸ level)
      simpa [List.count_cons, Ne.symm hj] using h.below j level
  | aged _ level patient =>
    have stays : ahead k last i rest = rest := by
      rw [ahead, if_neg]
      rintro ⟨⟨-, due⟩, -⟩
      omega
    have priority : ∀ j, (Function.update k.info i (age (k.info i) last) j).priority =
        (k.info j).priority := update_reads (·.priority) (by simp [age])
    rw [stays]
    refine Or.inr ⟨rfl, h.limit, h.queue, fun j => ?_, ?_, ?_⟩
    · rw [note_info, setInfo_info, priority j]
      exact h.priority j
    · intro j at_last
      rw [note_info, setInfo_info] at at_last ⊢
      rw [priority j] at at_last
      have before := h.counted j at_last
      by_cases hj : j = i
      · subst hj
        rw [List.count_cons_self] at before
        simp only [Function.update_self, age, note_store, setInfo_store]
        omega
      · simpa [List.count_cons, hj, Ne.symm hj] using before
    · intro j at_last
      rw [note_info, setInfo_info] at at_last ⊢
      rw [priority j] at at_last
      have before := h.below j at_last
      by_cases hj : j = i
      · subst hj
        intro _
        simpa [age] using patient
      · simpa [List.count_cons, hj, Ne.symm hj] using before
  | boosted s₁ s₂ _ level due enque delete =>
    obtain ⟨-, -, moved, -⟩ := relink_leak w enque delete
    have leaks := moved inside
    refine Or.inl ⟨?_, fun patient => ?_⟩
    · show leak k.store < leak s₂
      omega
    · have counted := h.counted i level
      rw [List.count_cons_self] at counted
      have linked := List.count_pos_iff.mpr inside
      have level₁ : (k₁.info i).priority = last.val := (h.priority i).symm.trans level
      have limit := h.limit
      rw [h.queue] at counted linked
      rcases patient i level₁ with none | short
      · omega
      · omega

/-- A pass leaks no page exactly when no process is due in it. -/
theorem pass_leak (w : Wf k.store) (bottom : (last.val : Int) = k.m - 1)
    (h : ruleFive k = .ok k') :
    Wf k'.store ∧ leak k.store ≤ leak k'.store ∧
      (leak k'.store = leak k.store ↔ Patient k last) := by
  let I : Kernel → List Slot → Prop := fun r rest =>
    leak k.store < leak r.store ∧ ¬ Patient k last ∨
      leak r.store = leak k.store ∧ Unmoved k r last rest
  have start : Unmoved k k last (k.store.queue last) := by
    refine ⟨rfl, rfl, fun _ => rfl, fun _ _ => rfl, fun i _ less => ?_⟩
    omega
  have pass := pass_rule (I := I) bottom w ?visit (Or.inr ⟨rfl, start⟩)
  case visit =>
    intro r i rest r' hr levels wr suffix ho
    have low := (visit_leak wr ho).2
    rcases hr with ⟨leaks, due⟩ | ⟨same, unmoved⟩
    · exact Or.inl ⟨by omega, due⟩
    · have inside : i ∈ r.store.queue last := suffix.subset List.mem_cons_self
      rcases visit_unmoved wr unmoved levels inside ho with ⟨leaks, due⟩ | ⟨still, unmoved'⟩
      · exact Or.inl ⟨by omega, due⟩
      · exact Or.inr ⟨still.trans same, unmoved'⟩
  obtain ⟨w', k₀, rfl, hk₀⟩ := pass.of_ok h
  refine ⟨w', ?_⟩
  rw [note_store]
  rcases hk₀ with ⟨leaks, due⟩ | ⟨same, done⟩
  · exact ⟨by omega, fun heq => by omega, fun patient => (due patient).elim⟩
  · refine ⟨same.ge, fun _ i level => ?_, fun _ => same⟩
    have level₀ : (k₀.info i).priority = last.val := (done.priority i).trans level
    have counted := done.counted i level₀
    have below := done.below i level₀
    have limit := done.limit
    rw [done.queue] at counted below
    rw [List.count_nil] at counted below
    by_cases none : (k.store.queue last).count i = 0
    · exact Or.inl none
    · have := below (Nat.pos_of_ne_zero none)
      exact Or.inr (by omega)

/-- The iteration that begins now ends in its tick block. -/
def Expiring (s : Machine) : Prop :=
  ∃ i, s.frame.p = some i ∧
    ((s.kernel.proc i).state = .runnable ∨ (s.kernel.proc i).state = .running) ∧
    Full s.kernel i

/-- The step drops no linked element: no session starts over a nonempty queue,
and the iteration neither demotes a linked process nor finds one due. -/
structure Sparing (s : Machine) (e : Event) : Prop where
  start : ∀ m n, e = .startMLFQ m n → s.kernel.mlfqFlag = false →
    ∀ l, s.kernel.store.queue l = []
  demote : ∀ choose i, e = .iterate choose → s.kernel.mlfqFlag = true → s.frame.p = some i →
    ((s.kernel.proc i).state = .runnable ∨ (s.kernel.proc i).state = .running) →
    ¬ Unlinks s.kernel i
  patient : ∀ choose (last : Level), e = .iterate choose → s.kernel.mlfqFlag = true →
    (last.val : Int) = s.kernel.m - 1 → ¬ Expiring s → Patient s.kernel last

/-- A charge within the quantum leaves the bottom queue as it was. -/
theorem within_patient (h : ChargeOutcome k i k' false) : Patient k' last ↔ Patient k last := by
  cases h with
  | within l =>
    have priority : ∀ j, (Function.update k.info i (tick (k.info i) l) j).priority =
        (k.info j).priority := update_reads (·.priority) (by simp [tick])
    have counter : ∀ j,
        (Function.update k.info i (tick (k.info i) l) j).ticksAtMaxPriority =
          (k.info j).ticksAtMaxPriority := update_reads (·.ticksAtMaxPriority) (by simp [tick])
    simp [Patient, priority, counter]

theorem rest_leak {choose : Selection} {k₁ k₂ k₃ : Kernel} {f : Frame} (w : Wf k₁.store)
    (h₂ : ruleFive k₁ = .ok k₂) (h₃ : admissionScan k₂ = .ok k₃) :
    ∃ last : Level, (last.val : Int) = k₁.m - 1 ∧
      Wf (dispatch k₃ (selectionBlock choose k₃ f).p).store ∧
      leak k₁.store ≤ leak (dispatch k₃ (selectionBlock choose k₃ f).p).store ∧
      (leak (dispatch k₃ (selectionBlock choose k₃ f).p).store = leak k₁.store ↔
        Patient k₁ last) := by
  obtain ⟨last, hl, -⟩ := bind_eq_ok.mp h₂
  have bottom : (last.val : Int) = k₁.m - 1 := (mlfqIndex_eq_ok.mp hl).symm
  obtain ⟨w₂, low, iff⟩ := pass_leak w bottom h₂
  have scan : Wf k₃.store ∧ leak k₃.store = leak k₂.store := by
    refine admissionScan_keeps (I := fun r => Wf r.store ∧ leak r.store = leak k₂.store) ?_
      ⟨w₂, rfl⟩ h₃
    rintro r i r' ⟨wr, same⟩ ho
    obtain ⟨wr', still⟩ := admit_leak wr ho
    exact ⟨wr', still.trans same⟩
  rw [dispatch_store, scan.2]
  exact ⟨last, bottom, scan.1, low, iff⟩

theorem iteration_leak {choose : Selection} {f f' : Frame} (w : Wf k.store)
    (flag : k.mlfqFlag = true) (h : iteration choose k f = .ok (k', f')) :
    leak k.store ≤ leak k'.store ∧
      (leak k'.store = leak k.store ↔ Sparing ⟨k, f⟩ (.iterate choose)) := by
  rcases iteration_parts h with ⟨i, hp, awake, hc, -⟩ | ⟨k₁, k₂, k₃, h₁, h₂, h₃, rfl, rfl⟩
  · obtain ⟨-, full, low, iff⟩ := charge_leak w hc
    have expiring : Expiring ⟨k, f⟩ := ⟨i, hp, awake, full.mp rfl⟩
    refine ⟨low, iff.trans ⟨fun spares => ?_, fun sparing => ?_⟩⟩
    · refine ⟨fun _ _ he => (by cases he), ?_, fun _ _ _ _ _ running => (running expiring).elim⟩
      rintro - j - - hj -
      have same : i = j := Option.some.inj (hp.symm.trans hj)
      exact same ▸ spares
    · exact sparing.demote choose i rfl flag hp awake
  · rcases h₁ with ⟨rfl, idle⟩ | ⟨i, hp, awake, hc⟩
    · obtain ⟨last, bottom, -, low, iff⟩ := @rest_leak choose k₁ k₂ k₃ f w h₂ h₃
      have asleep : ∀ i, f.p = some i → ¬ ((k₁.proc i).state = .runnable ∨
          (k₁.proc i).state = .running) := by
        rintro i hi (awake | awake)
        · exact (idle i hi).1 awake
        · exact (idle i hi).2 awake
      have running : ¬ Expiring ⟨k₁, f⟩ := fun ⟨i, hi, awake, _⟩ => asleep i hi awake
      refine ⟨low, iff.trans ⟨fun patient => ?_, fun sparing => ?_⟩⟩
      · refine ⟨fun _ _ he => (by cases he), ?_, ?_⟩
        · intro _ i _ _ hi awake
          exact (asleep i hi awake).elim
        · intro _ last' _ _ bottom' _
          have same : last = last' := Fin.ext (by simp only at bottom'; omega)
          exact same ▸ patient
      · exact sparing.patient choose last rfl flag bottom running
    · obtain ⟨w₁, full, low₁, iff₁⟩ := charge_leak w hc
      obtain ⟨last, bottom, -, low, iff⟩ := @rest_leak choose k₁ k₂ k₃ f w₁ h₂ h₃
      have short : ¬ Full k i := fun hf => by cases full.mpr hf
      have spares : ¬ Unlinks k i := fun hu => short hu.1
      have same₁ : leak k₁.store = leak k.store := iff₁.mpr spares
      rw [(charge_settings hc).m] at bottom
      have only : ∀ j, f.p = some j → j = i := fun j hj => Option.some.inj (hj.symm.trans hp)
      have running : ¬ Expiring ⟨k, f⟩ := by
        rintro ⟨j, hj, -, hf⟩
        exact short (only j hj ▸ hf)
      rw [same₁] at low iff
      refine ⟨low, iff.trans ((within_patient hc).trans ⟨fun patient => ?_, fun sparing => ?_⟩)⟩
      · refine ⟨fun _ _ he => (by cases he), ?_, ?_⟩
        · intro _ j _ _ hj _
          exact (only j hj).symm ▸ spares
        · intro _ last' _ _ bottom' _
          have same : last = last' := Fin.ext (by simp only at bottom'; omega)
          exact same ▸ patient
      · exact sparing.patient choose last rfl flag bottom running

/-- Clearing the heads leaks every page that is still linked. -/
theorem start_leak {k : Kernel} (idle : k.mlfqFlag = false) (m n : Int) :
    leak k.store ≤ leak (startMLFQ k m n).2.store ∧
      (leak (startMLFQ k m n).2.store = leak k.store ↔ ∀ l, k.store.queue l = []) := by
  have store := (start_idle (k := k) m n idle).2.2.2.1
  have none : linked (startMLFQ k m n).2.store = 0 := by
    refine Finset.sum_eq_zero fun l _ => ?_
    rw [store]
    simp only [Store.elements]
    cases k.store.taken.length <;> rfl
  have taken : (startMLFQ k m n).2.store.taken = k.store.taken := by rw [store]
  have empty : linked k.store = 0 ↔ ∀ l, k.store.queue l = [] := by
    simp [linked, Finset.sum_eq_zero_iff, Store.queue]
  rw [← empty]
  unfold leak
  rw [none, taken]
  omega

/-- The other events neither take a page for an element nor touch a queue. -/
theorem other_leak {s t : Machine} {e : Event} (h : step s e = .ok t)
    (start : ∀ m n, e = .startMLFQ m n → s.kernel.mlfqFlag = true)
    (iterate : ∀ choose, e = .iterate choose → s.kernel.mlfqFlag = false) :
    leak t.kernel.store = leak s.kernel.store := by
  cases step_effect h with
  | iterated flag =>
    have off := iterate _ rfl
    rw [flag] at off
    cases off
  | returned => rfl
  | quiet other q => rw [q.store]
  | recycled => rfl
  | started m n flag =>
    have on := start m n rfl
    rw [flag] at on
    cases on
  | stopped flag => rw [(stop_running flag).2.2.2.1]
  | lent => rfl
  | repaid => rfl

theorem step_leak {s t : Machine} {e : Event} (sound : Sound s.kernel)
    (h : step s e = .ok t) :
    leak s.kernel.store ≤ leak t.kernel.store ∧
      (leak t.kernel.store = leak s.kernel.store ↔ Sparing s e) := by
  by_cases starts : ∃ m n, e = .startMLFQ m n ∧ s.kernel.mlfqFlag = false
  · obtain ⟨m, n, rfl, idle⟩ := starts
    obtain rfl : session s m n = t := Except.ok.inj h
    obtain ⟨low, iff⟩ := start_leak idle m n
    refine ⟨low, iff.trans ⟨fun empty => ?_, fun sparing => sparing.start m n rfl idle⟩⟩
    exact ⟨fun _ _ _ _ => empty, fun _ _ he => (by cases he), fun _ _ he => (by cases he)⟩
  · by_cases iterates : ∃ choose, e = .iterate choose ∧ s.kernel.mlfqFlag = true
    · obtain ⟨choose, rfl, flag⟩ := iterates
      cases step_effect h with
      | iterated flag hi => exact iteration_leak sound.wf flag hi
      | returned off =>
        rw [off] at flag
        cases flag
      | quiet other => exact (other _ rfl).elim
      | recycled j others fresh origin =>
        rcases origin with ⟨-, _, _, _, he⟩ | ⟨_, he, -⟩ <;> cases he
    · have start : ∀ m n, e = .startMLFQ m n → s.kernel.mlfqFlag = true := by
        intro m n he
        by_contra off
        exact starts ⟨m, n, he, by simpa using off⟩
      have iterate : ∀ choose, e = .iterate choose → s.kernel.mlfqFlag = false := by
        intro choose he
        by_contra on
        exact iterates ⟨choose, he, by simpa using on⟩
      have same := other_leak h start iterate
      refine ⟨same.ge, fun _ => ⟨?_, ?_, ?_⟩, fun _ => same⟩
      · intro m n he off
        rw [start m n he] at off
        cases off
      · intro choose _ he on
        rw [iterate choose he] at on
        cases on
      · intro choose _ he on
        rw [iterate choose he] at on
        cases on

/-- After any run from boot the pages taken are the elements linked exactly when
every step of the run was sparing. -/
theorem run_balanced_iff {pages : List Addr} (nodup : pages.Nodup) {es : List Event}
    {t : Machine} (h : run step (boot pages) es = .ok t) :
    t.kernel.store.taken.length = linked t.kernel.store ↔
      Meets step Sparing (boot pages) es := by
  have measure := run_measure (G := Sparing) (I := fun s => Sound s.kernel)
    (μ := fun s => leak s.kernel.store)
    (fun s e t sound ht => ⟨step_sound sound ht, step_leak sound ht⟩) (boot_sound nodup) h
  have start : leak (boot pages).kernel.store = 0 := by
    simp [leak, linked, boot, emptyStore, Store.elements, LinkedSegments.follow]
  rw [start] at measure
  refine Iff.trans ?_ measure.2
  unfold leak
  omega

/-- A run that admits one process. -/
def admissionRun : List Event := [.rr 0, .startMLFQ 2 1, .yield 0, .iterate (select none)]

theorem run_balanced_admission : ∃ t, run step (boot [0, 1]) admissionRun = .ok t ∧
    t.kernel.store.taken.length = 1 ∧
    (t.kernel.store.taken.length = linked t.kernel.store ↔
      Meets step Sparing (boot [0, 1]) admissionRun) := by
  have ends : Yields (run step (boot [0, 1]) admissionRun)
      fun t => t.kernel.store.taken.length = 1 := by decide +kernel
  obtain ⟨t, ht, taken⟩ := ends
  exact ⟨t, ht, taken, run_balanced_iff (by decide) ht⟩

/-- One process, two queues and two pages. -/
def drainRun : List Event :=
  [.rr 0, .startMLFQ 2 1, .yield 0, .iterate (select none), .yield 0, .iterate (select none),
    .yield 0, .iterate (select none)]

/-- The first demotion leaves two pages taken for one element and none free; the
boost that follows finds no page and leaves no element at all. -/
theorem pages_run_out :
    (Yields (run step (boot [0, 1]) drainRun) fun s =>
      s.kernel.store.taken.length = 2 ∧ linked s.kernel.store = 1 ∧
        s.kernel.store.freelist = []) ∧
    (Yields (run step (boot [0, 1]) (drainRun ++ [.iterate (select none)])) fun s =>
      s.kernel.store.taken.length = 2 ∧ linked s.kernel.store = 0 ∧
        s.kernel.store.failed = 1) := by
  decide +kernel

end PageAccounting
