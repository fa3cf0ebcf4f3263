import Xv6.Lib.EventRuns
import Xv6.QueueStore

/-!
# The linked queues refine lists of processes

Runs of `mlfq_enque`, `mlfq_deque` and `mlfq_delete` over `mlfqQueues`, each
call to `kalloc` yielding some page that no element occupies, beside the same
operations on lists: append at the end, take off the first process, remove the
first occurrence. The pages that `mlfq_delete` unlinks are not given back, so
they stay occupied.
-/

namespace QueueRefinement

open ProcTable QueueStore LinkedSegments EventRuns Outcomes

/-- An operation on queue `l`; `new` is the page that `kalloc` yields. -/
inductive Op where
  | enque (new : Addr) (l : Level) (i : Slot)
  | deque (l : Level)
  | delete (l : Level) (i : Slot)
  deriving DecidableEq

/-- `returned` are the results of the calls to `mlfq_deque` so far. -/
structure Machine where
  store : Store
  returned : List (Option Slot)

def step (s : Machine) : Op → Except Fault Machine
  | .enque new l i => do
    let store ← mlfqEnque (s.store.setFreelist [new]) l i
    pure { s with store }
  | .deque l =>
    let (first, store) := mlfqDeque s.store l
    .ok ⟨store, s.returned ++ [first]⟩
  | .delete l i => do
    let store ← mlfqDelete s.store l i
    pure { s with store }

/-- The page that `kalloc` yields is not occupied. -/
def Fresh (s : Machine) : Op → Prop
  | .enque new _ _ => new ∉ s.store.taken
  | _ => True

instance (s : Machine) (op : Op) : Decidable (Fresh s op) := by
  cases op <;> unfold Fresh <;> infer_instance

/-- Ten empty queues, whatever the memory holds. -/
def emptyQueues (mem : Addr → MlfqQueueElement) : Machine :=
  ⟨⟨fun _ => none, mem, [], [], 0⟩, []⟩

structure Lists where
  queue : Level → List Slot
  returned : List (Option Slot)

def Lists.empty : Lists := ⟨fun _ => [], []⟩

def listStep (s : Lists) : Op → Lists
  | .enque _ l i => { s with queue := Function.update s.queue l (s.queue l ++ [i]) }
  | .deque l =>
    ⟨Function.update s.queue l (s.queue l).tail, s.returned ++ [(s.queue l).head?]⟩
  | .delete l i => { s with queue := Function.update s.queue l ((s.queue l).erase i) }

/-- The pointers of queue `l` spell out the processes: `next` leads from the head
through distinct elements of them, and `prev` leads back from the last one. -/
def Spells (s : Store) (l : Level) (procs : List Slot) : Prop :=
  ∃ nodes, Path s.next (s.head l) nodes ∧ Path s.prev nodes.getLast? nodes.reverse ∧
    nodes.Nodup ∧ nodes.map s.procAt = procs

theorem holds_spells {s : Store} {q : Level → List Addr} (h : Holds s q) (l : Level) :
    Spells s l (s.queue l) := by
  refine ⟨q l, ?_, ?_, h.nodup l, (h.queue_eq l).symm⟩
  · rw [h.head l]
    exact (h.segment l).path
  · exact (h.segment l).path_reverse

/-- The queues of the store are those of the lists. -/
structure Related (s : Machine) (a : Lists) : Prop where
  wf : Wf s.store
  queue : s.store.queue = a.queue
  returned : s.returned = a.returned

variable {s : Machine} {a : Lists}

theorem enque_related (r : Related s a) {new : Addr} (fresh : new ∉ s.store.taken) (l : Level)
    (i : Slot) :
    Yields (step s (.enque new l i)) fun t => Related t (listStep a (.enque new l i)) := by
  have supplied : Wf (s.store.setFreelist [new]) :=
    r.wf.setFreelist (List.nodup_singleton new) (by simpa using fresh)
  obtain ⟨q, h⟩ := supplied
  have page : (s.store.setFreelist [new]).freelist = new :: [] := rfl
  obtain ⟨t, ht, e⟩ := mlfqEnque_spec h l i page
  refine ⟨{ s with store := t }, by simp only [step, ht]; rfl, ⟨_, e.holds⟩, ?_, r.returned⟩
  rw [e.queue h]
  exact congrArg (fun queue => Function.update queue l (queue l ++ [i])) r.queue

theorem deque_related (r : Related s a) (l : Level) :
    Related ⟨(mlfqDeque s.store l).2, s.returned ++ [(mlfqDeque s.store l).1]⟩
      (listStep a (.deque l)) := by
  obtain ⟨q, h⟩ := r.wf
  have here : a.queue l = (q l).map s.store.procAt := by rw [← r.queue, h.queue_eq]
  cases split : q l with
  | nil =>
    have none : s.store.head l = none := by rw [h.head l, split]; rfl
    have idle : mlfqDeque s.store l = (.none, s.store) := by simp only [mlfqDeque, none]
    have empty : a.queue l = [] := by rw [here, split]; rfl
    rw [idle]
    refine ⟨⟨q, h⟩, ?_, ?_⟩
    · simp only [listStep, empty, List.tail_nil]
      rw [← empty, Function.update_eq_self, r.queue]
    · simp [listStep, empty, r.returned]
  | cons b rest =>
    obtain ⟨first, holds, procs, -, -⟩ := mlfqDeque_spec h split
    have queued : a.queue l = s.store.procAt b :: rest.map s.store.procAt := by
      rw [here, split]
      rfl
    refine ⟨⟨_, holds⟩, ?_, ?_⟩
    · funext l'
      rw [holds.queue_eq, procs]
      by_cases same : l' = l
      · subst same
        simp [listStep, queued]
      · simp [listStep, same, ← r.queue, h.queue_eq]
    · simp [listStep, queued, first, r.returned]

theorem delete_related (r : Related s a) (l : Level) (i : Slot) :
    Yields (step s (.delete l i)) fun t => Related t (listStep a (.delete l i)) := by
  obtain ⟨q, h⟩ := r.wf
  obtain ⟨t, ht, d⟩ := mlfqDelete_spec h l i
  refine ⟨{ s with store := t }, by simp only [step, ht]; rfl, ⟨_, d.holds⟩, ?_, r.returned⟩
  rw [d.queue h]
  exact congrArg (fun queue => Function.update queue l ((queue l).erase i)) r.queue

/-- One operation on the queues is that operation on the lists. -/
theorem step_related (r : Related s a) {op : Op} (fresh : Fresh s op) :
    Yields (step s op) fun t => Related t (listStep a op) := by
  cases op with
  | enque new l i => exact enque_related r fresh l i
  | deque l => exact yields_ok (deque_related r l)
  | delete l i => exact delete_related r l i

theorem empty_related (mem : Addr → MlfqQueueElement) :
    Related (emptyQueues mem) .empty := by
  have holds : Holds (emptyQueues mem).store fun _ => [] := by
    refine ⟨fun _ => rfl, fun _ => trivial, fun _ => List.nodup_nil, ?_, ?_, ?_, ?_, ?_⟩
    · exact fun _ _ _ member => nomatch member
    · exact fun _ _ member => nomatch member
    · exact fun _ member => nomatch member
    · exact List.nodup_nil
    · exact List.nodup_nil
  refine ⟨⟨_, holds⟩, ?_, rfl⟩
  funext l
  rw [holds.queue_eq]
  rfl

/-- No run of the operations faults, the calls to `mlfq_deque` return what the
lists give, and at its end every queue spells out its list. -/
theorem run_refines_lists {mem : Addr → MlfqQueueElement} {ops : List Op}
    (fresh : Meets step Fresh (emptyQueues mem) ops) :
    Yields (run step (emptyQueues mem) ops) fun t =>
      t.returned = (ops.foldl listStep .empty).returned ∧
      ∀ l, Spells t.store l ((ops.foldl listStep .empty).queue l) := by
  obtain ⟨t, ht, r⟩ := run_simulates (R := Related) (f := listStep)
    (fun _ _ _ r fresh => step_related r fresh) (empty_related mem) fresh
  obtain ⟨q, h⟩ := r.wf
  exact ⟨t, ht, r.returned, fun l => r.queue ▸ holds_spells h l⟩

/-- Two processes come, the first one leaves and comes again on another page. -/
def shuffle : List Op :=
  [.enque 5 1 3, .enque 2 1 4, .delete 1 3, .enque 9 1 3, .deque 1]

theorem run_refines_lists_shuffle :
    Yields (run step (emptyQueues fun _ => ⟨7, some 1, some 1⟩) shuffle) fun t =>
      t.returned = [some 4] ∧ Spells t.store 1 [3] := by
  have fresh : Meets step Fresh (emptyQueues fun _ => ⟨7, some 1, some 1⟩) shuffle := by
    decide +kernel
  obtain ⟨t, ht, returned, spells⟩ := run_refines_lists fresh
  exact ⟨t, ht, returned, spells 1⟩

end QueueRefinement
