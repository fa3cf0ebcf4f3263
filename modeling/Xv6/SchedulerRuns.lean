import Xv6.FeedbackScheduler
import Xv6.Lib.EventRuns

/-!
# Runs of the scheduler and the processes

A machine is the kernel together with the frame of `MLFQ_scheduler`. An event
is one iteration of the scheduler loop, a dispatch by `RR_scheduler`, one
system call or interrupt, or a page that the rest of the kernel takes or
returns. Events come in any order; one whose guard fails changes nothing.

A selection step is part of the event. Results about every `Selection` cover
whichever process a selection step picks, and `select` is the one of the code.
-/

namespace SchedulerRuns

open ProcTable QueueStore FeedbackScheduler EventRuns Outcomes

structure Machine where
  kernel : Kernel
  frame : Frame

inductive Event where
  /-- The loop test and, when the flag is set, one iteration. -/
  | iterate (choose : Selection)
  /-- `RR_scheduler` finds slot `i` runnable and switches to it. -/
  | rr (i : Slot)
  | yield (i : Slot)
  | sleep (i : Slot) (chan : Chan)
  /-- By a process, or by an interrupt handler. -/
  | wakeup (self : Option Slot) (chan : Chan)
  | kill (pid : Int)
  | fork (i : Slot) (memory copied : Bool)
  | exit (i : Slot) (status : Int)
  | wait (i : Slot) (delivered : Bool)
  | startMLFQ (m n : Int)
  | stopMLFQ
  | kalloc
  | kfree (a : Addr)

/-- Process `i` is on a CPU and has not yet given up its life. -/
def Executing (t : Table) (i : Slot) : Prop :=
  (t.proc i).state = .running ∧ (t.proc i).context ≠ .exit

instance (t : Table) (i : Slot) : Decidable (Executing t i) :=
  inferInstanceAs (Decidable (_ ∧ _))

def Kernel.setTable (k : Kernel) (t : Table) : Kernel := { k with toTable := t }

/-- The slot that a `fork` takes loses what an earlier process left there. -/
def forkKernel (k : Kernel) (i : Slot) (memory copied : Bool) : Kernel :=
  match unusedSlot k.toTable with
  | none => k
  | some j => (Kernel.setTable k (fork k.toTable i memory copied).2).note (.reset j)

def waitKernel (k : Kernel) (i : Slot) (delivered : Bool) : Kernel :=
  match zombieChild k.toTable i with
  | none => Kernel.setTable k (wait k.toTable i delivered).2
  | some j =>
    if delivered then (Kernel.setTable k (wait k.toTable i delivered).2).note (.reset j)
    else k

def rrKernel (k : Kernel) (i : Slot) : Kernel :=
  if (k.proc i).state = .runnable then dispatch k (some i) else k

/-- The events that leave the frame of the scheduler alone. -/
def kernelStep (k : Kernel) : Event → Kernel
  | .iterate _ => k
  | .rr i => rrKernel k i
  | .yield i =>
    if Executing k.toTable i then Kernel.setTable k (ProcTable.yield k.toTable i) else k
  | .sleep i chan =>
    if Executing k.toTable i then Kernel.setTable k (ProcTable.sleep k.toTable i chan) else k
  | .wakeup self chan => Kernel.setTable k (ProcTable.wakeup k.toTable self (some chan))
  | .kill pid => Kernel.setTable k (ProcTable.kill k.toTable pid).2
  | .fork i memory copied =>
    if Executing k.toTable i then forkKernel k i memory copied else k
  | .exit i status =>
    if Executing k.toTable i ∧ i ≠ initproc then
      Kernel.setTable k (ProcTable.exit k.toTable i status)
    else k
  | .wait i delivered => if Executing k.toTable i then waitKernel k i delivered else k
  | .startMLFQ m n => (FeedbackScheduler.startMLFQ k m n).2
  | .stopMLFQ => (FeedbackScheduler.stopMLFQ k).2
  | .kalloc => k.setStore (QueueStore.kalloc k.store).2
  | .kfree a =>
    if a ∈ k.store.freelist ∨ a ∈ k.store.taken then k
    else k.setStore (QueueStore.kfree k.store a)

/-- `while (mlfqFlag)`: with the flag clear the call returns, and the next call
of `MLFQ_scheduler` starts with fresh local variables. -/
def step (s : Machine) (e : Event) : Except Fault Machine :=
  match e with
  | .iterate choose =>
    if s.kernel.mlfqFlag then do
      let (k, f) ← iteration choose s.kernel s.frame
      pure ⟨k, f⟩
    else .ok ⟨s.kernel, .entry⟩
  | e => .ok ⟨kernelStep s.kernel e, s.frame⟩

def emptyStore (pages : List Addr) : Store where
  head := fun _ => none
  mem := fun _ => ⟨0, none, none⟩
  freelist := pages
  taken := []
  failed := 0

/-- The kernel after `userinit`; `pages` are the free pages left by the boot. -/
def boot (pages : List Addr) : Machine where
  kernel := {
    toTable := userinit { proc := fun _ => .boot, nextpid := 1 }
    mlfqFlag := false
    m := 0
    n := 0
    store := emptyStore pages
    log := [] }
  frame := .entry

def Reachable (s : Machine) : Prop :=
  ∃ pages es, pages.Nodup ∧ run step (boot pages) es = .ok s

/-- What holds after the boot and is kept by every step holds in every
reachable state. -/
theorem Reachable.induct {I : Machine → Prop} (init : ∀ pages, pages.Nodup → I (boot pages))
    (keep : ∀ s e t, I s → step s e = .ok t → I t) {s : Machine} (h : Reachable s) : I s := by
  obtain ⟨pages, es, nodup, hr⟩ := h
  exact run_invariant_all keep (init pages nodup) hr

/-- The event does not begin another session. -/
def Continues (s : Machine) (e : Event) : Prop :=
  ∀ m n, e = .startMLFQ m n → s.kernel.mlfqFlag = true

/-- The event frees slot `j`. -/
def Frees (s : Machine) (e : Event) (j : Slot) : Prop :=
  ∃ i, e = .wait i true ∧ Executing s.kernel.toTable i ∧
    zombieChild s.kernel.toTable i = some j

instance (s : Machine) (e : Event) : Decidable (Continues s e) :=
  match e with
  | .startMLFQ _ _ =>
    decidable_of_iff (s.kernel.mlfqFlag = true) ⟨fun h _ _ _ => h, fun h => h _ _ rfl⟩
  | .iterate _ | .rr _ | .yield _ | .sleep _ _ | .wakeup _ _ | .kill _ | .fork _ _ _
  | .exit _ _ | .wait _ _ | .stopMLFQ | .kalloc | .kfree _ => isTrue fun _ _ h => nomatch h

instance (s : Machine) (e : Event) (j : Slot) : Decidable (Frees s e j) :=
  match e with
  | .wait i true =>
    decidable_of_iff (Executing s.kernel.toTable i ∧ zombieChild s.kernel.toTable i = some j)
      ⟨fun h => ⟨i, rfl, h⟩, fun ⟨_, heq, h⟩ => by cases heq; exact h⟩
  | .wait _ false | .iterate _ | .rr _ | .yield _ | .sleep _ _ | .wakeup _ _ | .kill _
  | .fork _ _ _ | .exit _ _ | .startMLFQ _ _ | .stopMLFQ | .kalloc | .kfree _ =>
    isFalse fun ⟨_, h, _⟩ => nomatch h

/-- The machine right after `startMLFQ`, called while the flag is clear. -/
def session (s : Machine) (m n : Int) : Machine := ⟨(startMLFQ s.kernel m n).2, s.frame⟩

/-- A kernel step that no part of the MLFQ state notices. -/
structure Quiet (k k' : Kernel) : Prop where
  flag : k'.mlfqFlag = k.mlfqFlag
  m : k'.m = k.m
  n : k'.n = k.n
  store : k'.store = k.store
  info : ∀ i, k'.info i = k.info i
  unused : ∀ i, (k'.proc i).state = .unused ↔ (k.proc i).state = .unused
  log : k'.log = k.log ∨ ∃ i, k'.log = .dispatched i .runnable :: k.log

/-- Every step, by what it does to the MLFQ state. -/
inductive Effect : Event → Machine → Machine → Prop
  | iterated {choose : Selection} {k k' : Kernel} {f f' : Frame}
      (flag : k.mlfqFlag = true) (h : iteration choose k f = .ok (k', f')) :
      Effect (.iterate choose) ⟨k, f⟩ ⟨k', f'⟩
  | returned {choose : Selection} {k : Kernel} {f : Frame} (flag : k.mlfqFlag = false) :
      Effect (.iterate choose) ⟨k, f⟩ ⟨k, .entry⟩
  | quiet {e : Event} {k k' : Kernel} {f : Frame} (other : ∀ choose, e ≠ .iterate choose)
      (h : Quiet k k') :
      Effect e ⟨k, f⟩ ⟨k', f⟩
  | recycled {e : Event} {k : Kernel} {f : Frame} {t : Table} (j : Slot)
      (others : ∀ i, i ≠ j → t.proc i = k.proc i)
      (fresh : (t.proc j).mlfqInfo = .zero)
      (origin : (k.proc j).state = .unused ∧ (∃ i memory copied, e = .fork i memory copied) ∨
        Frees ⟨k, f⟩ e j) :
      Effect e ⟨k, f⟩ ⟨(Kernel.setTable k t).note (.reset j), f⟩
  | started {k : Kernel} {f : Frame} (m n : Int) (flag : k.mlfqFlag = false) :
      Effect (.startMLFQ m n) ⟨k, f⟩ ⟨(startMLFQ k m n).2, f⟩
  | stopped {k : Kernel} {f : Frame} (flag : k.mlfqFlag = true) :
      Effect .stopMLFQ ⟨k, f⟩ ⟨(stopMLFQ k).2, f⟩
  | lent {k : Kernel} {f : Frame} {a : Addr} {pages : List Addr}
      (h : k.store.freelist = a :: pages) :
      Effect .kalloc ⟨k, f⟩ ⟨k.setStore (k.store.setFreelist pages), f⟩
  | repaid {k : Kernel} {f : Frame} {a : Addr} (free : a ∉ k.store.freelist)
      (other : a ∉ k.store.taken) :
      Effect (.kfree a) ⟨k, f⟩ ⟨k.setStore (k.store.setFreelist (a :: k.store.freelist)), f⟩

theorem Quiet.refl (k : Kernel) : Quiet k k :=
  ⟨rfl, rfl, rfl, rfl, fun _ => rfl, fun _ => Iff.rfl, Or.inl rfl⟩

/-- A table in which no slot changes its MLFQ fields or its being in use. -/
theorem Quiet.of_table {k : Kernel} {t : Table}
    (h : ∀ i, (t.proc i).mlfqInfo = (k.proc i).mlfqInfo ∧
      ((t.proc i).state = .unused ↔ (k.proc i).state = .unused)) :
    Quiet k (Kernel.setTable k t) :=
  ⟨rfl, rfl, rfl, rfl, fun i => (h i).1, fun i => (h i).2, Or.inl rfl⟩

/-- The same for a change of one slot. -/
theorem Quiet.of_set {k : Kernel} {i : Slot} {p : Proc}
    (info : p.mlfqInfo = (k.proc i).mlfqInfo)
    (unused : p.state = .unused ↔ (k.proc i).state = .unused) :
    Quiet k (Kernel.setTable k (k.toTable.set i p)) := by
  refine Quiet.of_table fun j => ?_
  by_cases h : j = i
  · subst h
    simpa using ⟨info, unused⟩
  · simp [h]

theorem wakeup_info (t : Table) (self : Option Slot) (chan : Option Chan) (i : Slot) :
    ((wakeup t self chan).proc i).mlfqInfo = (t.proc i).mlfqInfo := by
  simp only [wakeup]
  split <;> rfl

theorem wakeup_unused (t : Table) (self : Option Slot) (chan : Option Chan) (i : Slot) :
    ((wakeup t self chan).proc i).state = .unused ↔ (t.proc i).state = .unused := by
  simp only [wakeup]
  split
  · rename_i h
    simp [h.2.1]
  · rfl

theorem reparent_info (t : Table) (i j : Slot) :
    ((reparent t i).proc j).mlfqInfo = (t.proc j).mlfqInfo ∧
      (((reparent t i).proc j).state = .unused ↔ (t.proc j).state = .unused) := by
  unfold reparent
  simp only
  split <;> simp only [wakeup_info, wakeup_unused] <;> split <;> simp

theorem quiet_kill (k : Kernel) (pid : Int) :
    Quiet k (Kernel.setTable k (kill k.toTable pid).2) := by
  unfold kill
  cases (List.finRange nproc).find? fun j => (k.proc j).pid = pid with
  | none => exact Quiet.refl k
  | some j =>
    refine Quiet.of_set ?_ ?_
    · split <;> rfl
    · split
      · rename_i h
        have hs : (k.proc j).state = .sleeping := h
        simp [hs]
      · rfl

theorem quiet_exit (k : Kernel) (i : Slot) (status : Int) (h : Executing k.toTable i) :
    Quiet k (Kernel.setTable k (exit k.toTable i status)) := by
  refine Quiet.of_table fun j => ?_
  have hj := reparent_info k.toTable i j
  by_cases hij : j = i
  · subst hij
    have hs := h.1
    simp [exit, wakeup_info, hj.1, hs]
  · simp [exit, hij, wakeup_info, wakeup_unused, hj.1, hj.2]

theorem quiet_rr (k : Kernel) (i : Slot) : Quiet k (rrKernel k i) := by
  unfold rrKernel
  split
  · rename_i h
    refine ⟨rfl, rfl, rfl, rfl, fun j => ?_, fun j => ?_, Or.inr ⟨i, ?_⟩⟩
    · by_cases hj : j = i
      · subst hj
        simp [Kernel.info, dispatch, Kernel.note, swtchTo]
      · simp [Kernel.info, dispatch, Kernel.note, hj]
    · by_cases hj : j = i
      · subst hj
        simp [dispatch, Kernel.note, swtchTo, h]
      · simp [dispatch, Kernel.note, hj]
    · simp [dispatch, Kernel.note, h]
  · exact Quiet.refl k

theorem fork_fresh {t : Table} {i j : Slot} {memory copied : Bool}
    (h : unusedSlot t = some j) :
    ((fork t i memory copied).2.proc j).mlfqInfo = .zero ∧
      ∀ i', i' ≠ j → (fork t i memory copied).2.proc i' = t.proc i' := by
  unfold fork allocproc
  rw [h]
  cases memory <;> cases copied <;>
    refine ⟨by simp [freeproc], fun i' hi => ?_⟩ <;> simp [hi, Table.set]

theorem wait_frees {t : Table} {i j : Slot} (h : zombieChild t i = some j) :
    (wait t i true).2 = t.set j (freeproc (t.proc j)) := by
  simp [wait, h]

theorem effect_wait (k : Kernel) (f : Frame) (i : Slot) (delivered : Bool)
    (h : Executing k.toTable i) :
    Effect (.wait i delivered) ⟨k, f⟩ ⟨waitKernel k i delivered, f⟩ := by
  unfold waitKernel
  cases hz : zombieChild k.toTable i with
  | none =>
    refine .quiet (by simp) ?_
    simp only [wait, hz]
    split
    · exact Quiet.refl k
    · exact Quiet.of_set rfl (by simp [h.1])
  | some j =>
    cases delivered with
    | false => exact .quiet (by simp) (Quiet.refl k)
    | true =>
      simp only [wait_frees hz, if_true]
      refine .recycled j (fun i' hi => by simp [hi]) (by simp [freeproc]) (Or.inr ?_)
      exact ⟨i, rfl, h, hz⟩

theorem effect_fork (k : Kernel) (f : Frame) (i : Slot) (memory copied : Bool) :
    Effect (.fork i memory copied) ⟨k, f⟩ ⟨forkKernel k i memory copied, f⟩ := by
  unfold forkKernel
  cases hu : unusedSlot k.toTable with
  | none => exact .quiet (by simp) (Quiet.refl k)
  | some j =>
    obtain ⟨fresh, others⟩ := @fork_fresh k.toTable i j memory copied hu
    exact .recycled j others fresh (Or.inl ⟨unusedSlot_state hu, i, memory, copied, rfl⟩)

/-- Inversion of a step: the case analysis behind every run invariant. -/
theorem step_effect {s s' : Machine} {e : Event} (h : step s e = .ok s') :
    Effect e s s' := by
  obtain ⟨k, f⟩ := s
  cases e with
  | iterate choose =>
    simp only [step] at h
    split at h
    · rename_i flag
      obtain ⟨⟨k', f'⟩, hr, hs⟩ := bind_eq_ok.mp h
      rw [← pure_eq_ok.mp hs]
      exact .iterated flag hr
    · rename_i flag
      rw [← Except.ok.inj h]
      exact .returned (by simpa using flag)
  | rr i =>
    rw [← Except.ok.inj h]
    exact .quiet (by simp) (quiet_rr k i)
  | yield i =>
    rw [← Except.ok.inj h]
    refine .quiet (by simp) ?_
    simp only [kernelStep]
    split
    · rename_i hx
      exact Quiet.of_set rfl (by simp [hx.1])
    · exact Quiet.refl k
  | sleep i chan =>
    rw [← Except.ok.inj h]
    refine .quiet (by simp) ?_
    simp only [kernelStep]
    split
    · rename_i hx
      exact Quiet.of_set rfl (by simp [hx.1])
    · exact Quiet.refl k
  | wakeup self chan =>
    rw [← Except.ok.inj h]
    exact .quiet (by simp) (Quiet.of_table fun i => ⟨wakeup_info _ _ _ i, wakeup_unused _ _ _ i⟩)
  | kill pid =>
    rw [← Except.ok.inj h]
    exact .quiet (by simp) (quiet_kill k pid)
  | fork i memory copied =>
    rw [← Except.ok.inj h]
    simp only [kernelStep]
    split
    · exact effect_fork k f i memory copied
    · exact .quiet (by simp) (Quiet.refl k)
  | exit i status =>
    rw [← Except.ok.inj h]
    refine .quiet (by simp) ?_
    simp only [kernelStep]
    split
    · rename_i hx
      exact quiet_exit k i status hx.1
    · exact Quiet.refl k
  | wait i delivered =>
    rw [← Except.ok.inj h]
    simp only [kernelStep]
    split
    · rename_i hx
      exact effect_wait k f i delivered hx
    · exact .quiet (by simp) (Quiet.refl k)
  | startMLFQ m n =>
    rw [← Except.ok.inj h]
    cases flag : k.mlfqFlag with
    | true =>
      refine .quiet (by simp) ?_
      simpa [kernelStep, FeedbackScheduler.startMLFQ, flag] using Quiet.refl k
    | false => exact .started m n flag
  | stopMLFQ =>
    rw [← Except.ok.inj h]
    cases flag : k.mlfqFlag with
    | true => exact .stopped flag
    | false =>
      refine .quiet (by simp) ?_
      simpa [kernelStep, FeedbackScheduler.stopMLFQ, flag] using Quiet.refl k
  | kalloc =>
    rw [← Except.ok.inj h]
    cases hf : k.store.freelist with
    | nil =>
      refine .quiet (by simp) ?_
      simpa [kernelStep, QueueStore.kalloc, hf, Kernel.setStore] using Quiet.refl k
    | cons a pages =>
      simpa [kernelStep, QueueStore.kalloc, hf] using Effect.lent hf
  | kfree a =>
    rw [← Except.ok.inj h]
    simp only [kernelStep]
    split
    · exact .quiet (by simp) (Quiet.refl k)
    · rename_i hn
      rw [not_or] at hn
      exact .repaid hn.1 hn.2

theorem kernelStep_effect (k : Kernel) (f : Frame) {e : Event}
    (other : ∀ choose, e ≠ .iterate choose) : Effect e ⟨k, f⟩ ⟨kernelStep k e, f⟩ := by
  apply step_effect
  cases e with
  | iterate choose => exact absurd rfl (other choose)
  | _ => rfl

end SchedulerRuns
