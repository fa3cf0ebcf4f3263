import Xv6.SchedulerBlocks

/-!
# The walk of Rule 5 over the bottom queue

The loop follows `temp->next` while the element it stands on may have been
unlinked and, when the bottom queue is also the top queue, while elements are
appended ahead of it. Over well formed queues the elements still to come are
always a suffix of the bottom queue; the pass rule is an induction over that
suffix, and it shows that the pass ends within its fuel.
-/

namespace RuleFivePass

open ProcTable QueueStore FeedbackScheduler SchedulerRuns SchedulerBlocks Outcomes
open LinkedSegments

/-- Rule 5 moves the process when it visits an element of it. -/
def Due (k : Kernel) (i : Slot) : Prop :=
  ((k.info i).priority : Int) = k.m - 1 ∧
    k.n ≤ ((k.info i).ticksAtMaxPriority : Int) + 1

instance (k : Kernel) (i : Slot) : Decidable (Due k i) := inferInstanceAs (Decidable (_ ∧ _))

/-- The processes still to be visited after a visit of `i`. -/
def ahead (k : Kernel) (last : Level) (i : Slot) (rest : List Slot) : List Slot :=
  if Due k i ∧ last = 0 ∧ k.store.freelist ≠ [] then rest ++ [i] else rest

/-- The cursor of the loop: `R` are the elements still to come. -/
structure Cursor (k : Kernel) (last : Level) (temp : Option Addr) (R : List Addr) : Prop where
  bottom : (last.val : Int) = k.m - 1
  linked : ∃ q D, Holds k.store q ∧ q last = D ++ R
  temp : temp = R.head?

/-- A visit whose process stays put leaves the store alone. -/
theorem visit_stays {k : Kernel} {last : Level} {i : Slot} (bottom : (last.val : Int) = k.m - 1)
    (h : ¬ Due k i) : Yields (ruleFiveVisit k last i) fun k' => k'.store = k.store := by
  simp only [ruleFiveVisit]
  by_cases hp : ((k.info i).priority : Int) = k.m - 1
  · have hi : mlfqIndex ((k.info i).priority : Int) = .ok last :=
      mlfqIndex_eq_ok.mpr (hp.trans bottom.symm)
    have hn : ¬ k.n ≤ (((k.info i).ticksAtMaxPriority + 1 : Nat) : Int) := by
      intro hn
      exact h ⟨hp, by simpa using hn⟩
    simp only [if_pos hp, hi, Bind.bind, Except.bind]
    rw [if_neg (by simpa using hn)]
    exact yields_ok rfl
  · rw [if_neg hp]
    exact yields_ok rfl

/-- A visit whose process is due performs its two queue operations. -/
theorem visit_moves {k : Kernel} {last : Level} {i : Slot} (bottom : (last.val : Int) = k.m - 1)
    (h : Due k i) {s₁ s₂ : Store} (enque : mlfqEnque k.store 0 i = .ok s₁)
    (delete : mlfqDelete s₁ last i = .ok s₂) :
    Yields (ruleFiveVisit k last i) fun k' => k'.store = s₂ := by
  obtain ⟨hp, hn⟩ := h
  have hi : mlfqIndex ((k.info i).priority : Int) = .ok last :=
    mlfqIndex_eq_ok.mpr (hp.trans bottom.symm)
  simp only [ruleFiveVisit, if_pos hp, hi, Bind.bind, Except.bind, note_store, setInfo_store,
    enque, delete]
  rw [if_pos (by simpa using hn)]
  exact yields_ok rfl

/-- One visit: the cursor moves to the elements that stood ahead of it, behind
which a boosted process may have been appended. -/
theorem Cursor.visit {k : Kernel} {last : Level} {temp : Option Addr} {a : Addr}
    {R : List Addr} (c : Cursor k last temp (a :: R)) :
    Yields (ruleFiveVisit k last (k.store.procAt a)) fun k' => ∃ R',
      Cursor k' last (k'.store.next a) R' ∧
      R'.map k'.store.procAt =
        ahead k last (k.store.procAt a) (R.map k.store.procAt) ∧
      R'.length + k'.store.freelist.length ≤ R.length + k.store.freelist.length := by
  obtain ⟨bottom, ⟨q, D, hq, split⟩, -⟩ := c
  set i := k.store.procAt a with hi
  have hnext : k.store.next a = R.head? := hq.next_of_split split
  by_cases due : Due k i
  · -- the new element, if there is a page, stands behind `R` when the queues coincide
    have key : ∀ s₁ q₁ R₁, mlfqEnque k.store 0 i = .ok s₁ → Holds s₁ q₁ →
        q₁ last = D ++ a :: R₁ → s₁.procAt a = i →
        R₁.map s₁.procAt = ahead k last i (R.map k.store.procAt) →
        R₁.length + s₁.freelist.length ≤ R.length + k.store.freelist.length →
        Yields (ruleFiveVisit k last i) fun k' => ∃ R',
          Cursor k' last (k'.store.next a) R' ∧
          R'.map k'.store.procAt = ahead k last i (R.map k.store.procAt) ∧
          R'.length + k'.store.freelist.length ≤ R.length + k.store.freelist.length := by
      intro s₁ q₁ R₁ enque h₁ split₁ here procs budget
      obtain ⟨s₂, delete, d⟩ := mlfqDelete_spec h₁ last i
      obtain ⟨⟨D', hD'⟩, hn⟩ := d.cursor h₁ split₁ here
      obtain ⟨k', hk', hs⟩ := visit_moves bottom due enque delete
      refine ⟨k', hk', R₁, ⟨?_, ⟨_, D', hs ▸ d.holds, ?_⟩, hs ▸ hn⟩, ?_, ?_⟩
      · rw [(visit_settings (visit_outcome bottom hk')).m]
        exact bottom
      · rw [Function.update_self, hD']
      · rw [hs, d.pages.2.2.2]
        exact procs
      · rw [hs, d.pages.1]
        exact budget
    by_cases hf : k.store.freelist = []
    · exact key _ q R (mlfqEnque_full 0 i hf) hq.refused split rfl
        (by simp [ahead, hf, refused_procAt]) le_rfl
    · obtain ⟨new, rest, hf⟩ := List.exists_cons_of_ne_nil hf
      obtain ⟨s₁, enque, e⟩ := mlfqEnque_spec hq 0 i hf
      have hnew : ∀ b ∈ q last, b ≠ new := by
        intro b hb heq
        exact hq.free new (by simp [hf]) (heq ▸ hq.taken last b hb)
      have ha : s₁.procAt a = i := by
        rw [e.procAt, Function.update_of_ne (hnew a (by simp [split]))]
      have hR : R.map s₁.procAt = R.map k.store.procAt := by
        refine List.map_congr_left fun b hb => ?_
        rw [e.procAt, Function.update_of_ne (hnew b (by simp [split, hb]))]
      have hlen : k.store.freelist.length = s₁.freelist.length + 1 := by
        rw [e.freelist, List.length_cons]
      by_cases top : last = 0
      · refine key s₁ _ (R ++ [new]) enque e.holds ?_ ha ?_ ?_
        · rw [top, Function.update_self, ← top, split]
          simp
        · rw [List.map_append, hR]
          simp [ahead, due, top, hf, e.procAt]
        · rw [hlen, List.length_append, List.length_singleton]
          omega
      · refine key s₁ _ R enque e.holds ?_ ha ?_ ?_
        · rw [Function.update_of_ne top]
          exact split
        · rw [hR]
          simp [ahead, top]
        · rw [hlen]
          omega
  · obtain ⟨k', hk', hs⟩ := visit_stays bottom due
    refine ⟨k', hk', R, ⟨?_, ⟨q, D ++ [a], hs ▸ hq, by simp [split]⟩, hs ▸ hnext⟩, ?_, ?_⟩
    · rw [(visit_settings (visit_outcome bottom hk')).m]
      exact bottom
    · simp [hs, ahead, due]
    · rw [hs]

/-- What is still to be visited is the end of the bottom queue. -/
theorem Cursor.suffix {k : Kernel} {last : Level} {temp : Option Addr} {R : List Addr}
    (c : Cursor k last temp R) :
    Wf k.store ∧ R.map k.store.procAt <:+ k.store.queue last := by
  obtain ⟨q, D, hq, split⟩ := c.linked
  refine ⟨⟨q, hq⟩, ?_⟩
  rw [hq.queue_eq, split, List.map_append]
  exact List.suffix_append _ _

/-- The pass rule: an invariant over the processes still to be visited. -/
theorem loop_rule {I : Kernel → List Slot → Prop} {last : Level}
    (visit : ∀ k i rest k', I k (i :: rest) → (last.val : Int) = k.m - 1 → Wf k.store →
      i :: rest <:+ k.store.queue last → VisitOutcome k last i k' →
      I k' (ahead k last i rest))
    {fuel : Nat} {k : Kernel} {temp : Option Addr} {R : List Addr}
    (c : Cursor k last temp R) (start : I k (R.map k.store.procAt))
    (enough : R.length + k.store.freelist.length ≤ fuel) :
    Yields (ruleFiveLoop last fuel k temp) fun k' => Wf k'.store ∧ I k' [] := by
  induction fuel generalizing k temp R with
  | zero =>
    have hR : R = [] := List.length_eq_zero_iff.mp (by omega)
    subst hR
    have ht : temp = none := c.temp
    subst ht
    exact yields_ok ⟨c.suffix.1, start⟩
  | succ fuel ih =>
    cases R with
    | nil =>
      have ht : temp = none := c.temp
      subst ht
      exact yields_ok ⟨c.suffix.1, start⟩
    | cons a R =>
      have ht : temp = some a := c.temp
      subst ht
      obtain ⟨k', hk', R', c', procs, budget⟩ := c.visit
      have hI : I k' (R'.map k'.store.procAt) := by
        rw [procs]
        exact visit k _ _ k' start c.bottom c.suffix.1 c.suffix.2 (visit_outcome c.bottom hk')
      have hfuel : R'.length + k'.store.freelist.length ≤ fuel := by
        simp only [List.length_cons] at enough
        omega
      obtain ⟨k'', hk'', h⟩ := ih c' hI hfuel
      exact ⟨k'', by simp only [ruleFiveLoop, hk', Bind.bind, Except.bind, hk''], h⟩

/-- A whole pass over well formed queues ends and keeps the invariant. -/
theorem pass_rule {I : Kernel → List Slot → Prop} {last : Level} {k : Kernel}
    (bottom : (last.val : Int) = k.m - 1) (w : Wf k.store)
    (visit : ∀ k i rest k', I k (i :: rest) → (last.val : Int) = k.m - 1 → Wf k.store →
      i :: rest <:+ k.store.queue last → VisitOutcome k last i k' →
      I k' (ahead k last i rest))
    (start : I k (k.store.queue last)) :
    Yields (ruleFive k) fun k' => Wf k'.store ∧ ∃ k₀, k' = k₀.note .passed ∧ I k₀ [] := by
  obtain ⟨q, hq⟩ := w
  have hi : mlfqIndex (k.m - 1) = .ok last := mlfqIndex_eq_ok.mpr bottom.symm
  have c : Cursor k last (k.store.head last) (q last) :=
    ⟨bottom, ⟨q, [], hq, rfl⟩, hq.head last⟩
  have hlen := hq.length_le last
  obtain ⟨k₀, hk₀, w₀, hI⟩ := loop_rule visit c (by rw [← hq.queue_eq]; exact start)
    (Nat.add_le_add_right hlen _)
  refine ⟨k₀.note .passed, ?_, w₀, k₀, rfl, hI⟩
  simp only [ruleFive, hi, Bind.bind, Except.bind, hk₀]
  rfl

end RuleFivePass
