import Xv6.LevelBounds
import Xv6.RuleFivePass

/-!
# Which processes a pass of Rule 5 examines

A pass over the bottom queue while `kalloc` does not fail. When the bottom queue
is not the top one, a boosted process is appended elsewhere and the walk ends
where it would have ended. When there is one queue only, a boosted process is
appended ahead of the walk, which comes to it again; if it is due again at
once, it is appended again, and the pass does not end before the pages do.
-/

namespace PassExaminations

open ProcTable QueueStore FeedbackScheduler SchedulerRuns SchedulerBlocks RuleFivePass
open LevelBounds Outcomes

/-- Each process occurs at most once, in the queue of its priority. -/
structure Placed (k : Kernel) : Prop where
  wf : Wf k.store
  level : ∀ l, ∀ i ∈ k.store.queue l, (k.info i).priority = l.val
  once : ∀ l, (k.store.queue l).Nodup

/-- The kernel with other free pages. -/
def supply (k : Kernel) (pages : List Addr) : Kernel := k.setStore (k.store.setFreelist pages)

/-- Pages that the allocator can have free. -/
structure Supply (k : Kernel) (pages : List Addr) : Prop where
  nodup : pages.Nodup
  free : ∀ a ∈ pages, a ∉ k.store.taken

/-- How often Rule 5 has examined process `i` in queue `l`. -/
def exams (k : Kernel) (l : Level) (i : Slot) : Nat := k.log.count (.aged i l)

/-- Given enough pages for `kalloc` not to fail, the pass ends and has examined each
process of the bottom queue once. -/
def ExaminesOnce (k : Kernel) (last : Level) : Prop :=
  ∃ enough, ∀ pages, Supply k pages → enough ≤ pages.length →
    Yields (ruleFive (supply k pages)) fun k' =>
      k'.store.failed = k.store.failed ∧
      ∀ i ∈ k.store.queue last, exams k' last i = exams k last i + 1

variable {k k₁ k' : Kernel} {last : Level} {i : Slot}

theorem supply_wf (w : Wf k.store) {pages : List Addr} (s : Supply k pages) :
    Wf (supply k pages).store := w.setFreelist s.nodup s.free

theorem exists_above (pages : List Nat) : ∃ bound, ∀ a ∈ pages, a < bound := by
  induction pages with
  | nil => exact ⟨0, fun _ member => nomatch member⟩
  | cons b pages ih =>
    obtain ⟨bound, below⟩ := ih
    refine ⟨max (b + 1) bound, fun a member => ?_⟩
    rcases List.mem_cons.mp member with rfl | member
    · exact Nat.le_max_left _ _
    · exact (below a member).trans_le (Nat.le_max_right _ _)

/-- The allocator can have as many free pages as one likes. -/
theorem exists_supply (k : Kernel) (enough : Nat) :
    ∃ pages, Supply k pages ∧ pages.length = enough := by
  obtain ⟨bound, below⟩ := exists_above k.store.taken
  refine ⟨List.range' bound enough, ⟨List.nodup_range', ?_⟩, List.length_range'⟩
  intro a fresh taken
  exact absurd (below a taken) (Nat.not_lt.mpr (List.mem_range'_1.mp fresh).1)

theorem exams_note (k : Kernel) (mark : Mark) (l : Level) (i : Slot) :
    exams (k.note mark) l i = exams k l i + if mark = .aged i l then 1 else 0 := by
  simp [exams, List.count_cons]

/-- What a visit records, and what it does to the processes it does not visit. -/
theorem visit_exams (h : VisitOutcome k₁ last i k') (level : (k₁.info i).priority = last.val) :
    (∀ j, exams k' last j = exams k₁ last j + if j = i then 1 else 0) ∧
    ∀ j, j ≠ i → k'.info j = k₁.info j := by
  cases h with
  | skipped elsewhere => exact absurd level elsewhere
  | aged bottom level patient =>
    refine ⟨fun j => ?_, fun j away => by simp [away]⟩
    rw [exams_note]
    simp only [Mark.aged.injEq, and_true, eq_comm (a := i)]
    rfl
  | boosted s₁ s₂ bottom level due enque delete =>
    refine ⟨fun j => ?_, fun j away => by simp [away]⟩
    rw [exams_note, if_neg nofun]
    change exams (Kernel.note _ (.aged i last)) last j = _
    rw [exams_note]
    simp only [Mark.aged.injEq, and_true, eq_comm (a := i)]
    rfl

/-- A visit with a page at hand: no allocation fails and at most that page is used. -/
theorem visit_supplied (w : Wf k₁.store) (h : VisitOutcome k₁ last i k')
    (page : k₁.store.freelist ≠ []) :
    k'.store.failed = k₁.store.failed ∧
      k₁.store.freelist.length ≤ k'.store.freelist.length + 1 := by
  cases h with
  | skipped elsewhere => exact ⟨rfl, by omega⟩
  | aged bottom level patient => exact ⟨rfl, Nat.le_succ _⟩
  | boosted s₁ s₂ bottom level due enque delete =>
    obtain ⟨w₁, full | ⟨-, failed, -, used⟩⟩ := enque_effect w enque
    · exact absurd full.1 page
    · obtain ⟨-, -, same, -, free⟩ := delete_effect w₁ delete
      refine ⟨same.trans failed, ?_⟩
      change k₁.store.freelist.length ≤ s₂.freelist.length + 1
      rw [free]
      omega

/-- A visit never takes back a failed allocation, and one without a page for a due
process counts one. -/
theorem visit_failed (w : Wf k₁.store) (h : VisitOutcome k₁ last i k') :
    k₁.store.failed ≤ k'.store.failed ∧
      (Due k₁ i → k₁.store.freelist = [] → (k₁.info i).priority = last.val →
        k₁.store.failed < k'.store.failed) := by
  cases h with
  | skipped elsewhere => exact ⟨le_rfl, fun _ _ level => absurd level elsewhere⟩
  | aged bottom level patient =>
    refine ⟨le_rfl, fun due _ _ => ?_⟩
    have := due.2
    omega
  | boosted s₁ s₂ bottom level due enque delete =>
    obtain ⟨w₁, effect⟩ := enque_effect w enque
    obtain ⟨-, -, same, -, -⟩ := delete_effect w₁ delete
    change k₁.store.failed ≤ s₂.failed ∧ (_ → _ → _ → k₁.store.failed < s₂.failed)
    rw [same]
    rcases effect with ⟨-, rfl, -⟩ | ⟨-, failed, -, used⟩
    · exact ⟨Nat.le_succ _, fun _ _ _ => Nat.lt_succ_self _⟩
    · refine ⟨failed.ge, fun _ empty _ => ?_⟩
      rw [empty] at used
      simp at used

theorem due_same (h : VisitOutcome k₁ last i k') {j : Slot} (same : k'.info j = k₁.info j) :
    Due k' j ↔ Due k₁ j := by
  have settings := visit_settings h
  rw [Due, Due, settings.m, settings.n, same]

/-- A pass from `k` that has still to visit `rest` and has examined the others. -/
structure Progress (k : Kernel) (last : Level) (k₁ : Kernel) (rest : List Slot) : Prop where
  split : ∃ seen, k.store.queue last = seen ++ rest ∧
    ∀ i, exams k₁ last i = exams k last i + seen.count i
  waiting : ∀ i ∈ rest, (k₁.info i).priority = last.val ∧ (Due k₁ i ↔ Due k i)
  failed : k₁.store.failed = k.store.failed
  pages : rest.length ≤ k₁.store.freelist.length

theorem progress_visit (once : (k.store.queue last).Nodup)
    (apart : last.val ≠ 0 ∨ ∀ i ∈ k.store.queue last, ¬ Due k i) {rest : List Slot}
    (p : Progress k last k₁ (i :: rest)) (w : Wf k₁.store) (h : VisitOutcome k₁ last i k') :
    Progress k last k' (ahead k₁ last i rest) := by
  obtain ⟨seen, split, counted⟩ := p.split
  obtain ⟨level, due⟩ := p.waiting i List.mem_cons_self
  obtain ⟨exam, others⟩ := visit_exams h level
  have page : k₁.store.freelist ≠ [] := by
    intro empty
    have := p.pages
    simp [empty] at this
  obtain ⟨failed, used⟩ := visit_supplied w h page
  have still : ahead k₁ last i rest = rest := by
    refine if_neg ?_
    rintro ⟨now, top, -⟩
    rcases apart with bottom | none
    · exact bottom (by simp [top])
    · exact none i (by simp [split]) (due.mp now)
  rw [still]
  have here : i ∉ rest := by
    have nodup := (List.nodup_append.mp (split ▸ once)).2.1
    exact (List.nodup_cons.mp nodup).1
  refine ⟨⟨seen ++ [i], by simp [split], fun j => ?_⟩, fun j member => ?_, ?_, ?_⟩
  · rw [exam, counted, List.count_append, List.count_singleton, Nat.add_assoc]
    simp only [beq_iff_eq, eq_comm (a := i)]
  · have away : j ≠ i := fun same => here (same ▸ member)
    obtain ⟨levelj, duej⟩ := p.waiting j (List.mem_cons_of_mem i member)
    exact ⟨by rw [others j away]; exact levelj, (due_same h (others j away)).trans duej⟩
  · exact failed.trans p.failed
  · have := p.pages
    simp only [List.length_cons] at this
    omega

/-- With a queue of its own at the top, or with no process due, a pass examines each
process once. -/
theorem examines_once (placed : Placed k) (bottom : (last.val : Int) = k.m - 1)
    (apart : last.val ≠ 0 ∨ ∀ i ∈ k.store.queue last, ¬ Due k i) : ExaminesOnce k last := by
  refine ⟨(k.store.queue last).length, fun pages s enough => ?_⟩
  have start : Progress k last (supply k pages) (k.store.queue last) :=
    ⟨⟨[], rfl, fun _ => rfl⟩, fun i member => ⟨placed.level last i member, Iff.rfl⟩, rfl, enough⟩
  refine (pass_rule (k := supply k pages) (I := Progress k last) bottom
    (supply_wf placed.wf s) ?_ start).mono ?_
  · intro k₁ i rest k' p _ w _ h
    exact progress_visit (placed.once last) apart p w h
  · rintro k' ⟨-, k₀, rfl, done⟩
    refine ⟨done.failed, fun i member => ?_⟩
    obtain ⟨seen, split, counted⟩ := done.split
    rw [List.append_nil] at split
    rw [exams_note, counted, ← split, List.count_eq_one_of_mem (placed.once last) member]
    rfl

/-- Where process `i` stands in a pass from `k` over the only queue: an allocation has
failed, or it is still to be visited for the first or the second time, or it has been
examined twice. -/
structure Return (k : Kernel) (last : Level) (i : Slot) (k₁ : Kernel) (rest : List Slot) :
    Prop where
  failed : k.store.failed ≤ k₁.store.failed
  stage : k.store.failed < k₁.store.failed ∨
    (exams k₁ last i = exams k last i ∧ i ∈ rest ∧ Due k₁ i ∧ (k₁.info i).priority = last.val) ∨
    (exams k last i + 1 ≤ exams k₁ last i ∧ i ∈ rest ∧ (k₁.info i).priority = last.val) ∨
    exams k last i + 2 ≤ exams k₁ last i

theorem mem_ahead (k₁ : Kernel) (last : Level) (j : Slot) {rest : List Slot} (member : i ∈ rest) :
    i ∈ ahead k₁ last j rest := by
  unfold ahead
  split
  · exact List.mem_append_left _ member
  · exact member

/-- A process at another priority is passed by. -/
theorem visit_elsewhere (h : VisitOutcome k₁ last i k') (level : (k₁.info i).priority ≠ last.val) :
    k' = k₁ := by
  cases h with
  | skipped elsewhere => rfl
  | aged bottom here => exact absurd here level
  | boosted s₁ s₂ bottom here => exact absurd here level

theorem visit_exams_le (h : VisitOutcome k₁ last i k') (j : Slot) :
    exams k₁ last j ≤ exams k' last j := by
  by_cases level : (k₁.info i).priority = last.val
  · rw [(visit_exams h level).1]
    exact Nat.le_add_right _ _
  · rw [visit_elsewhere h level]

/-- The visit examines no other process and leaves its parameters. -/
theorem visit_others (h : VisitOutcome k₁ last i k') {j : Slot} (other : j ≠ i) :
    exams k' last j = exams k₁ last j ∧ k'.info j = k₁.info j := by
  by_cases level : (k₁.info i).priority = last.val
  · obtain ⟨count, same⟩ := visit_exams h level
    rw [count, if_neg other, Nat.add_zero]
    exact ⟨rfl, same j other⟩
  · rw [visit_elsewhere h level]
    exact ⟨rfl, rfl⟩

theorem return_visit {j : Slot} (top : last.val = 0) {rest : List Slot}
    (r : Return k last i k₁ (j :: rest)) (w : Wf k₁.store) (h : VisitOutcome k₁ last j k') :
    Return k last i k' (ahead k₁ last j rest) := by
  obtain ⟨kept, short⟩ := visit_failed w h
  refine ⟨r.failed.trans kept, ?_⟩
  by_cases same : j = i
  · subst same
    rcases r.stage with lost | ⟨count, -, due, level⟩ | ⟨count, -, level⟩ | twice
    · exact .inl (lost.trans_le kept)
    · by_cases page : k₁.store.freelist = []
      · exact .inl (r.failed.trans_lt (short due page level))
      · -- the process is appended ahead of the walk, at the only priority there is
        have appended : j ∈ ahead k₁ last j rest := by
          rw [ahead, if_pos ⟨due, Fin.ext (by simpa using top), page⟩]
          simp
        have exam := (visit_exams h level).1 j
        rw [if_pos rfl, count] at exam
        refine .inr (.inr (.inl ⟨exam.ge, appended, ?_⟩))
        cases h with
        | skipped elsewhere => exact absurd level elsewhere
        | aged bottom level patient =>
          have := due.2
          omega
        | boosted s₁ s₂ bottom level now enque delete => simp [ascend, top]
    · have exam := (visit_exams h level).1 j
      rw [if_pos rfl] at exam
      exact .inr (.inr (.inr (by omega)))
    · exact .inr (.inr (.inr (twice.trans (visit_exams_le h j))))
  · obtain ⟨exam, other⟩ := visit_others h (Ne.symm same)
    rcases r.stage with lost | ⟨count, member, due, level⟩ | ⟨count, member, level⟩ | twice
    · exact .inl (lost.trans_le kept)
    · have left := mem_ahead k₁ last j
        ((List.mem_cons.mp member).resolve_left (Ne.symm same))
      have level' : (k'.info i).priority = last.val := by rw [other]; exact level
      exact .inr (.inl ⟨exam.trans count, left, (due_same h other).mpr due, level'⟩)
    · have left := mem_ahead k₁ last j
        ((List.mem_cons.mp member).resolve_left (Ne.symm same))
      exact .inr (.inr (.inl ⟨count.trans exam.ge, left, by rw [other]; exact level⟩))
    · exact .inr (.inr (.inr (twice.trans exam.ge)))

/-- A due process in the only queue is examined twice, or the pages run out. -/
theorem due_examined_again (placed : Placed k) (bottom : (last.val : Int) = k.m - 1)
    (top : last.val = 0) (member : i ∈ k.store.queue last) (due : Due k i) :
    ¬ ExaminesOnce k last := by
  rintro ⟨enough, examines⟩
  obtain ⟨pages, s, length⟩ := exists_supply k enough
  have start : Return k last i (supply k pages) (k.store.queue last) :=
    ⟨le_rfl, .inr (.inl ⟨rfl, member, due, placed.level last i member⟩)⟩
  have passes := pass_rule (k := supply k pages) (I := Return k last i) bottom
    (supply_wf placed.wf s) (fun _ _ _ _ r _ w _ h => return_visit top r w h) start
  obtain ⟨k', pass, failed, counted⟩ := examines pages s length.ge
  obtain ⟨-, k₀, rfl, done⟩ := passes.of_ok pass
  have same : exams (k₀.note .passed) last i = exams k₀ last i := by
    rw [exams_note]
    rfl
  have count := counted i member
  have kept : k₀.store.failed = k.store.failed := failed
  rcases done.stage with lost | ⟨-, none, -⟩ | ⟨-, none, -⟩ | twice
  · omega
  · cases none
  · cases none
  · omega

/-- The pass examines each process of the bottom queue once exactly when the bottom
queue is not also the top one or no process in it is due. -/
theorem examines_once_iff (placed : Placed k) (bottom : (last.val : Int) = k.m - 1) :
    ExaminesOnce k last ↔ 2 ≤ k.m ∨ ∀ i ∈ k.store.queue last, ¬ Due k i := by
  constructor
  · intro examines
    by_contra neither
    push Not at neither
    obtain ⟨one, i, member, due⟩ := neither
    exact due_examined_again placed bottom (by omega) member due examines
  · intro apart
    exact examines_once placed bottom (apart.imp_left fun two => by omega)

/-- Two of three processes have come down to the bottom queue, and the first is due. -/
def sunkRun : List Event :=
  [.rr 0, .fork 0 true true, .fork 0 true true, .startMLFQ 2 4, .yield 0, .iterate (select none),
    .yield 0, .iterate (select none), .yield 0, .iterate (select none), .iterate (select none),
    .yield 1, .iterate (select none), .yield 1, .iterate (select none), .iterate (select none)]

theorem examines_once_iff_sunk :
    ∃ s, EventRuns.run step (boot [0, 1, 2, 3, 4, 5]) sunkRun = .ok s ∧
      (s.kernel.m = 2 ∧ s.kernel.store.queue 1 = [0, 2] ∧ Due s.kernel 0 ∧ ¬ Due s.kernel 2) ∧
      ExaminesOnce s.kernel 1 := by
  have seen : Yields (EventRuns.run step (boot [0, 1, 2, 3, 4, 5]) sunkRun) fun s =>
      (s.kernel.m = 2 ∧ s.kernel.store.queue 1 = [0, 2] ∧ Due s.kernel 0 ∧ ¬ Due s.kernel 2) ∧
      (∀ l, ∀ i ∈ s.kernel.store.queue l, (s.kernel.info i).priority = l.val) ∧
      ∀ l, (s.kernel.store.queue l).Nodup := by
    decide +kernel
  obtain ⟨s, h, facts, level, once⟩ := seen
  have sound := reachable_sound ⟨_, _, by decide, h⟩
  have placed : Placed s.kernel := ⟨sound.wf, level, once⟩
  refine ⟨s, h, facts, (examines_once_iff placed ?_).mpr (.inl facts.1.ge)⟩
  rw [facts.1]
  rfl

/-- Process 3 alone in the only queue, when it has to stay there for `n` ticks. -/
def alone (n : Int) : Kernel where
  proc := fun _ => .boot
  nextpid := 1
  mlfqFlag := true
  m := 1
  n := n
  store := {
    head := Function.update (fun _ => none) 0 (some 7)
    mem := Function.update (fun _ => ⟨0, none, none⟩) 7 ⟨3, none, none⟩
    freelist := []
    taken := [7]
    failed := 0 }
  log := []

theorem alone_placed (n : Int) : Placed (alone n) ∧
    (alone n).store.queue = Function.update (fun _ => []) 0 [3] := by
  have enque : mlfqEnque (emptyStore [7]) 0 3 = .ok (alone n).store := rfl
  have empty : (emptyStore [7]).queue = fun _ => [] := rfl
  have wf : Wf (emptyStore [7]) := (boot_sound (List.nodup_singleton 7)).wf
  obtain ⟨w, full | ⟨queue, -⟩⟩ := enque_effect wf enque
  · cases full.1
  · rw [empty] at queue
    refine ⟨⟨w, fun l i member => ?_, fun l => ?_⟩, queue⟩
    · rw [queue] at member
      by_cases top : l = 0
      · rw [top]
        rfl
      · simp [top] at member
    · rw [queue]
      by_cases top : l = 0
      · simp [top]
      · simp [top]

/-- With one queue and `n = 1` the process is due whenever it is examined. -/
theorem alone_never_done : Placed (alone 1) ∧ ¬ ExaminesOnce (alone 1) 0 := by
  obtain ⟨placed, queue⟩ := alone_placed 1
  have member : (3 : Slot) ∈ (alone 1).store.queue 0 := by simp [queue]
  exact ⟨placed, due_examined_again placed rfl rfl member (by decide)⟩

end PassExaminations
