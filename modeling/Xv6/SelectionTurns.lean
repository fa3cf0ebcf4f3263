import Xv6.FeedbackScheduler
import Xv6.Lib.EventRuns

/-!
# The turns of the selection

Sequences of the selection steps of one call of `MLFQ_scheduler`. Between two of
them the table may change in any way; only `rr_index` is carried over. It is
kept below the number of candidates of the step that wrote it, and a later step
may have fewer.
-/

namespace SelectionTurns

open ProcTable FeedbackScheduler EventRuns

/-- The process is runnable and no runnable process comes before it. -/
def Foremost (k : Kernel) (i : Slot) : Prop :=
  (k.proc i).state = .runnable ∧
    ∀ j, (k.proc j).state = .runnable → (k.info i).priority ≤ (k.info j).priority

instance (k : Kernel) : DecidablePred (Foremost k) := fun _ => inferInstanceAs (Decidable (_ ∧ _))

/-- How many processes share the best priority. -/
def contenders (k : Kernel) : Nat := ((List.finRange nproc).filter (Foremost k ·)).length

/-- The table at a selection step, and what the stack holds where the step has
not written; a priority is an `int`. -/
structure Moment where
  kernel : Kernel
  stale : Option Slot
  int : ∀ i, (kernel.info i).priority ≤ 2147483647

/-- The selection block run with `p = 0`. -/
def step (f : Frame) (e : Moment) : Except Unit Frame :=
  .ok (selectionBlock (select e.stale) e.kernel { f with p := none })

/-- When a process is runnable the step selects a foremost one, whatever the stack
holds, and it reads what it has written. -/
def Selects (f : Frame) (e : Moment) : Prop :=
  (∃ i, (e.kernel.proc i).state = .runnable) →
    (∀ stale, ∃ i, (select stale e.kernel f.rrIndex).1 = some i ∧ Foremost e.kernel i) ∧
    (1 < (procsWithHighestPriority e.kernel).length →
      f.rrIndex < (procsWithHighestPriority e.kernel).length)

/-- The index carried over stays below the number of processes it has to choose from. -/
def InTurn (f : Frame) (e : Moment) : Prop :=
  1 < contenders e.kernel → f.rrIndex < contenders e.kernel

/-- The loop that finds the best value: it stays below every value it has passed, and
it has been given by one of them or is still the value at the start. -/
theorem best_spec {A : Type*} {P : A → Prop} [DecidablePred P] {v : A → Nat} {L : List A}
    {b : Nat} :
    let best := L.foldl (fun best i => if P i ∧ v i < best then v i else best) b
    best ≤ b ∧ (∀ i ∈ L, P i → best ≤ v i) ∧ (best = b ∨ ∃ i ∈ L, P i ∧ v i = best) := by
  induction L generalizing b with
  | nil => simp
  | cons a L ih =>
    simp only [List.foldl_cons]
    by_cases better : P a ∧ v a < b
    · rw [if_pos better]
      obtain ⟨low, below, origin⟩ := ih (b := v a)
      refine ⟨by omega, ?_, ?_⟩
      · rintro i member ok
        rcases List.mem_cons.mp member with rfl | member
        · exact low
        · exact below i member ok
      · rcases origin with same | ⟨i, member, ok, same⟩
        · exact .inr ⟨a, List.mem_cons_self, better.1, same.symm⟩
        · exact .inr ⟨i, List.mem_cons_of_mem a member, ok, same⟩
    · rw [if_neg better]
      obtain ⟨low, below, origin⟩ := ih (b := b)
      refine ⟨low, ?_, ?_⟩
      · rintro i member ok
        rcases List.mem_cons.mp member with rfl | member
        · have := Nat.le_of_not_lt fun less => better ⟨ok, less⟩
          omega
        · exact below i member ok
      · rcases origin with same | ⟨i, member, ok, same⟩
        · exact .inl same
        · exact .inr ⟨i, List.mem_cons_of_mem a member, ok, same⟩

theorem highest_spec (k : Kernel) :
    (∀ i, (k.proc i).state = .runnable → highestPriority k ≤ (k.info i).priority) ∧
      (highestPriority k = 2147483647 ∨
        ∃ i, (k.proc i).state = .runnable ∧ (k.info i).priority = highestPriority k) := by
  have best := best_spec (P := fun i => (k.proc i).state = .runnable)
    (v := fun i => (k.info i).priority) (L := List.finRange nproc) (b := 2147483647)
  obtain ⟨-, below, origin⟩ := best
  refine ⟨fun i runnable => below i (List.mem_finRange i) runnable, ?_⟩
  exact origin.imp_right fun ⟨i, _, found⟩ => ⟨i, found⟩

/-- The array collects exactly the foremost processes. -/
theorem procs_foremost (e : Moment) :
    procsWithHighestPriority e.kernel = (List.finRange nproc).filter (Foremost e.kernel ·) := by
  obtain ⟨below, origin⟩ := highest_spec e.kernel
  refine List.filter_congr fun i _ => decide_eq_decide.mpr ?_
  constructor
  · rintro ⟨runnable, same⟩
    exact ⟨runnable, fun j other => same ▸ below j other⟩
  · rintro ⟨runnable, first⟩
    refine ⟨runnable, Nat.le_antisymm ?_ (below i runnable)⟩
    rcases origin with same | ⟨j, other, same⟩
    · exact (e.int i).trans_eq same.symm
    · exact (first j other).trans_eq same

theorem mem_procs {e : Moment} {i : Slot} :
    i ∈ procsWithHighestPriority e.kernel ↔ Foremost e.kernel i := by
  rw [procs_foremost]
  simp

/-- When a process is runnable, some process is collected. -/
theorem procs_nonempty {e : Moment} (runnable : ∃ i, (e.kernel.proc i).state = .runnable) :
    procsWithHighestPriority e.kernel ≠ [] := by
  obtain ⟨below, origin⟩ := highest_spec e.kernel
  have found : ∃ j, (e.kernel.proc j).state = .runnable ∧
      (e.kernel.info j).priority = highestPriority e.kernel := by
    rcases origin with same | found
    · obtain ⟨i, runnable⟩ := runnable
      exact ⟨i, runnable, Nat.le_antisymm (same ▸ e.int i) (below i runnable)⟩
    · exact found
  obtain ⟨j, found⟩ := found
  exact List.ne_nil_of_mem (List.mem_filter.mpr ⟨List.mem_finRange j, decide_eq_true found⟩)

/-- A step selects well exactly when its index is within the candidates. -/
theorem selects_iff (f : Frame) (e : Moment) : Selects f e ↔ InTurn f e := by
  have count : contenders e.kernel = (procsWithHighestPriority e.kernel).length := by
    rw [procs_foremost, contenders]
  simp only [Selects, InTurn, count]
  constructor
  · intro selects several
    obtain ⟨i, member⟩ := List.exists_mem_of_length_pos (Nat.zero_lt_of_lt several)
    exact (selects ⟨i, (mem_procs.mp member).1⟩).2 several
  · intro inTurn runnable
    refine ⟨fun stale => ?_, inTurn⟩
    simp only [select]
    split
    · rename_i several
      rw [dif_pos (inTurn several)]
      exact ⟨_, rfl, mem_procs.mp (List.get_mem _ _)⟩
    · obtain ⟨i, rest, first⟩ := List.exists_cons_of_ne_nil (procs_nonempty runnable)
      refine ⟨i, by rw [first]; rfl, mem_procs.mp ?_⟩
      rw [first]
      exact List.mem_cons_self

/-- All the steps of a call select well exactly when each finds `rr_index` below the
number of processes that share the best priority at that step. -/
theorem run_selects_iff (es : List Moment) :
    Meets step Selects .entry es ↔ Meets step InTurn .entry es :=
  meets_iff (fun _ _ _ _ _ _ => trivial) (fun f e _ => selects_iff f e) (I := fun _ => True) trivial

/-- A table whose first `n` slots are runnable, all with the best priority. -/
def crowd (n : Nat) : Moment where
  kernel := {
    proc := fun i => { Proc.boot with state := if i.val < n then .runnable else .sleeping }
    nextpid := 1
    mlfqFlag := true
    m := 3
    n := 5
    store := ⟨fun _ => none, fun _ => ⟨0, none, none⟩, [], [], 0⟩
    log := [] }
  stale := none
  int := fun _ => Nat.zero_le _

/-- Three candidates at two steps and then two: the third step reads past them. -/
theorem selection_past_candidates :
    ¬ Meets step Selects .entry [crowd 3, crowd 3, crowd 2] := by
  intro meets
  have last := ((meets.2 _ rfl).2 _ rfl).1
  obtain ⟨i, selected, -⟩ := (last ⟨0, rfl⟩).1 none
  have read : (select none (crowd 2).kernel 2).1 = none := by decide +kernel
  cases read.symm.trans selected

end SelectionTurns
