import Xv6.OneCpuKernel

/-!
# Several CPUs

Every CPU runs its own scheduler and the process it switched to, over one
process table. A step is what a CPU does between two operations on locks: a
block of the scheduler takes no lock, a switch acquires `p->lock` and leaves it
to the process, and the process gives it back to the scheduler when it leaves.
Every other operation on a slot is one critical section under its lock.
-/

namespace MultiCpuDispatch

open ProcTable QueueStore FeedbackScheduler SchedulerRuns SchedulerBlocks ProcMoves
open EventRuns Outcomes
open OneCpuKernel (Control Stepped)

/-- How a process gives up the CPU. -/
inductive Leave where
  | yield
  | sleep (chan : Chan)
  | exit (status : Int)

/-- A critical section under the lock of a slot that is not the caller's. -/
inductive Touch where
  /-- The turn of `wakeup` for the slot. -/
  | wake (chan : Chan)
  | kill
  /-- `wait` finds a child that has exited. -/
  | reap
  /-- `allocproc` in `fork`, up to the release of the new lock. -/
  | alloc (pid : Int)
  /-- The end of `fork`. -/
  | launch
  /-- `fork` gives up. -/
  | abandon

inductive Action where
  /-- The next block of the scheduler, or one try of the lock it needs. -/
  | advance (stale : Option Slot)
  /-- The process switched to releases its lock, at the end of `sched`'s caller. -/
  | release
  /-- The process acquires its lock and changes its state. -/
  | leave (how : Leave)
  /-- `sched`: back to the scheduler, which releases the lock. -/
  | swtch
  | touch (j : Slot) (how : Touch)
  | startMLFQ (m n : Int)
  | stopMLFQ
  | kalloc
  | kfree (a : Addr)

variable {cpus : Nat}

structure Event (cpus : Nat) where
  cpu : Fin cpus
  action : Action

/-- `lock i` is the CPU that holds the lock of slot `i`. -/
structure Machine (cpus : Nat) where
  kernel : Kernel
  control : Fin cpus → Control
  lock : Slot → Option (Fin cpus)

def leave (p : Proc) : Leave → Proc
  | .yield => { p with state := .runnable, context := .yield }
  | .sleep chan =>
    { p with
      sleepCount := p.sleepCount + 1, chan := some chan, state := .sleeping, context := .sleep }
  | .exit status => { p with xstate := status, state := .zombie, context := .exit }

def touch (p : Proc) : Touch → Proc
  | .wake chan =>
    if p.state = .sleeping ∧ p.chan = some chan then { p with state := .runnable } else p
  | .kill =>
    if p.state = .sleeping then { p with killed := true, state := .runnable }
    else { p with killed := true }
  | .reap => if p.state = .zombie then freeproc p else p
  | .alloc pid =>
    if p.state = .unused then
      { p with pid := pid, state := .used, context := .forkret, mlfqInfo := .zero }
    else p
  | .launch => if p.state = .used then { p with state := .runnable } else p
  | .abandon => if p.state = .used then freeproc p else p

def setProc (k : Kernel) (i : Slot) (p : Proc) : Kernel :=
  Kernel.setTable k (k.toTable.set i p)

def Machine.setKernel (s : Machine cpus) (k : Kernel) : Machine cpus := { s with kernel := k }

/-- CPU `c` executes process `i`. -/
def Machine.Executes (s : Machine cpus) (c : Fin cpus) (i : Slot) : Prop :=
  (s.control c).myproc = some i

instance (s : Machine cpus) (c : Fin cpus) (i : Slot) : Decidable (s.Executes c i) :=
  inferInstanceAs (Decidable (_ = _))

/-- The lock that the next block needs is free. -/
def Machine.Free (s : Machine cpus) (c : Fin cpus) : Prop :=
  ∀ i ∈ (s.control c).wants, s.lock i = none

instance (s : Machine cpus) (c : Fin cpus) : Decidable (s.Free c) :=
  inferInstanceAs (Decidable (∀ i ∈ (s.control c).wants, s.lock i = none))

/-- The scheduler of CPU `c`. After a switch the lock stays held. -/
def advance (s : Machine cpus) (c : Fin cpus) (stale : Option Slot) :
    Except Fault (Machine cpus) :=
  if s.Free c then do
    let r ← OneCpuKernel.advance ⟨s.kernel, s.control c⟩ stale
    let lock := match (s.control c).myproc, r.control.myproc with
      | none, some i => Function.update s.lock i (some c)
      | _, _ => s.lock
    pure ⟨r.kernel, Function.update s.control c r.control, lock⟩
  else .ok s

/-- A step of the process on CPU `c`. -/
def process (s : Machine cpus) (c : Fin cpus) (i : Slot) (back : OneCpuKernel.Caller) :
    Action → Machine cpus
  | .release =>
    if s.lock i = some c ∧ (s.kernel.proc i).state = .running then
      { s with lock := Function.update s.lock i none }
    else s
  | .leave how =>
    if s.lock i = none then
      { s with
        kernel := setProc s.kernel i (leave (s.kernel.proc i) how),
        lock := Function.update s.lock i (some c) }
    else s
  | .swtch =>
    if s.lock i = some c ∧ (s.kernel.proc i).state ≠ .running then
      { s with
        control := Function.update s.control c back.resume,
        lock := Function.update s.lock i none }
    else s
  | .startMLFQ m n => s.setKernel (startMLFQ s.kernel m n).2
  | .stopMLFQ => s.setKernel (stopMLFQ s.kernel).2
  | _ => s

def step (s : Machine cpus) (e : Event cpus) : Except Fault (Machine cpus) :=
  match e.action with
  | .advance stale => advance s e.cpu stale
  | .touch j how =>
    .ok (if s.lock j = none then s.setKernel (setProc s.kernel j (touch (s.kernel.proc j) how))
      else s)
  | .kalloc => .ok (s.setKernel (kernelStep s.kernel .kalloc))
  | .kfree a => .ok (s.setKernel (kernelStep s.kernel (.kfree a)))
  | action =>
    match s.control e.cpu with
    | .process i back => .ok (process s e.cpu i back action)
    | _ => .ok s

def boot (cpus : Nat) (pages : List Addr) : Machine cpus where
  kernel := (SchedulerRuns.boot pages).kernel
  control := fun _ => .outside
  lock := fun _ => none

/-- When `MLFQ_scheduler` has acquired `p->lock`, `p` is not marked running. -/
def Guarded (s : Machine cpus) (e : Event cpus) : Prop :=
  ∀ stale f i, e.action = .advance stale → s.control e.cpu = .dispatching f → f.p = some i →
    s.lock i = none → (s.kernel.proc i).state ≠ .running

/-- No process is executing on two CPUs. -/
def Exclusive (s : Machine cpus) : Prop :=
  ∀ c d i, s.Executes c i → s.Executes d i → c = d

/-- The step leads to a state in which no process executes on two CPUs, and a
CPU that begins to execute a process finds it on no other one. -/
def Lawful (s : Machine cpus) (e : Event cpus) : Prop :=
  ∀ t, step s e = .ok t →
    Exclusive t ∧ ∀ c i, t.Executes c i → s.Executes c i ∨ ∀ d, ¬ s.Executes d i

/-- `wakeup` is its turn for every slot but the caller's. -/
theorem wakeup_touches (t : Table) (self : Option Slot) (chan : Chan) (j : Slot) :
    (wakeup t self (some chan)).proc j =
      if some j ≠ self then touch (t.proc j) (.wake chan) else t.proc j := by
  by_cases other : some j = self <;> simp [wakeup, touch, other]

theorem yield_leaves (t : Table) (i : Slot) :
    ProcTable.yield t i = t.set i (leave (t.proc i) .yield) := rfl

theorem sleep_leaves (t : Table) (i : Slot) (chan : Chan) :
    ProcTable.sleep t i chan = t.set i (leave (t.proc i) (.sleep chan)) := rfl

/-- Every step of a scheduler, by what it does to the slots and the locks. -/
inductive Advanced (s : Machine cpus) (c : Fin cpus) : Machine cpus → Prop
  | waits : Advanced s c s
  | block {k : Kernel} {control : Control} (h : Unswitched s.kernel k)
      (off : (s.control c).myproc = none) (off' : control.myproc = none) :
      Advanced s c ⟨k, Function.update s.control c control, s.lock⟩
  | switch {i : Slot} {back : OneCpuKernel.Caller} (off : (s.control c).myproc = none)
      (free : s.lock i = none) (wants : (s.control c).wants = some i)
      (origin : (∃ f, s.control c = .dispatching f) ∨ (s.kernel.proc i).state = .runnable) :
      Advanced s c ⟨dispatch s.kernel (some i),
        Function.update s.control c (.process i back), Function.update s.lock i (some c)⟩

theorem advance_cases {s t : Machine cpus} {c : Fin cpus} {stale : Option Slot}
    (h : advance s c stale = .ok t) : Advanced s c t := by
  unfold advance at h
  split at h
  · rename_i free
    obtain ⟨⟨k, control⟩, hr, h⟩ := bind_eq_ok.mp h
    rw [← pure_eq_ok.mp h]
    have stepped := OneCpuKernel.advance_stepped hr
    generalize hc : s.control c = before at stepped
    cases stepped with
    | stays =>
      rw [← hc, Function.update_eq_self]
      simp only [hc, Control.myproc]
      exact .waits
    | block unswitched off off' =>
      simp only [off, off']
      exact .block unswitched (hc ▸ off) off'
    | @switch _ _ _ i back off wants origin =>
      have wants' := hc ▸ wants
      have here : (Control.process i back).myproc = some i := rfl
      simp only [off, here]
      exact .switch (hc ▸ off) (free _ wants') wants' (hc ▸ origin)
  · rw [← Except.ok.inj h]
    exact .waits

structure Inv (s : Machine cpus) : Prop where
  exclusive : Exclusive s
  holder : ∀ i c, s.lock i = some c → s.Executes c i
  marked : ∀ c i, s.Executes c i → s.lock i = none → (s.kernel.proc i).state = .running
  executed : ∀ i, (s.kernel.proc i).state = .running → ∃ c, s.Executes c i

theorem boot_inv (pages : List Addr) : Inv (boot cpus pages) := by
  have idle : ∀ i, ((OneCpuKernel.boot []).kernel.proc i).state ≠ .running := by decide +kernel
  exact ⟨nofun, nofun, nofun, fun i running => absurd running (idle i)⟩

/-- A change of the kernel in which no slot begins or ceases to run. -/
theorem Inv.kernel {s : Machine cpus} (inv : Inv s) {k : Kernel}
    (same : ∀ i, (k.proc i).state = .running ↔ (s.kernel.proc i).state = .running) :
    Inv (s.setKernel k) :=
  ⟨inv.exclusive, inv.holder, fun c i here free => (same i).mpr (inv.marked c i here free),
    fun i running => inv.executed i ((same i).mp running)⟩

theorem executes_update {s : Machine cpus} {c d : Fin cpus} {i : Slot} {control : Control}
    {k : Kernel} {lock : Slot → Option (Fin cpus)} :
    (⟨k, Function.update s.control c control, lock⟩ : Machine cpus).Executes d i ↔
      if d = c then control.myproc = some i else s.Executes d i := by
  by_cases h : d = c
  · subst h
    simp [Machine.Executes]
  · simp [Machine.Executes, h]

/-- A block of the scheduler, which no process notices. -/
theorem Inv.block {s : Machine cpus} (inv : Inv s) {c : Fin cpus} {k : Kernel}
    {control : Control} (h : Unswitched s.kernel k) (off : (s.control c).myproc = none)
    (off' : control.myproc = none) :
    Inv ⟨k, Function.update s.control c control, s.lock⟩ := by
  have same : ∀ d i, (⟨k, Function.update s.control c control, s.lock⟩ :
      Machine cpus).Executes d i ↔ s.Executes d i := by
    intro d i
    rw [executes_update]
    split
    · rename_i h
      simp [h, Machine.Executes, off, off']
    · rfl
  constructor
  · intro d d' i hd hd'
    exact inv.exclusive d d' i ((same d i).mp hd) ((same d' i).mp hd')
  · intro i d held
    exact (same d i).mpr (inv.holder i d held)
  · intro d i hd free
    rw [h.state i]
    exact inv.marked d i ((same d i).mp hd) free
  · intro i running
    rw [h.state i] at running
    obtain ⟨d, hd⟩ := inv.executed i running
    exact ⟨d, (same d i).mpr hd⟩

/-- A process that is not marked running is on no CPU when its lock is free. -/
theorem Inv.nowhere {s : Machine cpus} (inv : Inv s) {i : Slot} (free : s.lock i = none)
    (idle : (s.kernel.proc i).state ≠ .running) (d : Fin cpus) : ¬ s.Executes d i :=
  fun hd => idle (inv.marked d i hd free)

theorem Inv.switch {s : Machine cpus} (inv : Inv s) {c : Fin cpus} {i : Slot}
    {back : OneCpuKernel.Caller} (off : (s.control c).myproc = none) (free : s.lock i = none)
    (idle : (s.kernel.proc i).state ≠ .running) :
    Inv ⟨dispatch s.kernel (some i), Function.update s.control c (.process i back),
      Function.update s.lock i (some c)⟩ := by
  have nowhere := inv.nowhere free idle
  have here : (Control.process i back).myproc = some i := rfl
  constructor
  · intro d d' j hd hd'
    rw [executes_update, here] at hd hd'
    split at hd <;> split at hd'
    · simp_all
    · rename_i _ away
      obtain rfl := Option.some.inj hd
      exact absurd hd' (nowhere d')
    · rename_i away _
      obtain rfl := Option.some.inj hd'
      exact absurd hd (nowhere d)
    · exact inv.exclusive d d' j hd hd'
  · intro j d held
    rw [executes_update, here]
    by_cases hj : j = i
    · subst hj
      simp only [Function.update_self, Option.some.injEq] at held
      simp [held]
    · simp only [Function.update_of_ne hj] at held
      have hd := inv.holder j d held
      have away : d ≠ c := by
        rintro rfl
        simp [Machine.Executes, off] at hd
      simpa [away] using hd
  · intro d j hd unlocked
    have hj : j ≠ i := by
      rintro rfl
      simp at unlocked
    rw [executes_update, here] at hd
    simp only [Function.update_of_ne hj] at unlocked
    rw [dispatch_state, if_neg hj]
    split at hd
    · exact absurd (Option.some.inj hd).symm hj
    · exact inv.marked d j hd unlocked
  · intro j running
    rw [dispatch_state] at running
    by_cases hj : j = i
    · exact ⟨c, by rw [executes_update, if_pos rfl, here, hj]⟩
    · rw [if_neg hj] at running
      obtain ⟨d, hd⟩ := inv.executed j running
      have away : d ≠ c := by
        rintro rfl
        simp [Machine.Executes, off] at hd
      exact ⟨d, by rw [executes_update, if_neg away]; exact hd⟩

theorem Inv.release {s : Machine cpus} (inv : Inv s) {i : Slot}
    (running : (s.kernel.proc i).state = .running) :
    Inv { s with lock := Function.update s.lock i none } := by
  refine ⟨inv.exclusive, fun j c held => ?_, fun c j here free => ?_, inv.executed⟩
  · by_cases hj : j = i
    · subst hj
      simp at held
    · exact inv.holder j c (by simpa [hj] using held)
  · by_cases hj : j = i
    · exact hj ▸ running
    · exact inv.marked c j here (by simpa [hj] using free)

theorem setProc_state (k : Kernel) (i j : Slot) (p : Proc) :
    ((setProc k i p).proc j).state = if j = i then p.state else (k.proc j).state := by
  by_cases h : j = i
  · subst h
    simp [setProc]
  · simp [setProc, h]

theorem leave_state (p : Proc) (how : Leave) : (leave p how).state ≠ .running := by
  cases how <;> simp [leave]

/-- The leaving process keeps its lock, so nobody relies on its mark. -/
theorem Inv.leave {s : Machine cpus} (inv : Inv s) {c : Fin cpus} {i : Slot}
    (here : s.Executes c i) (how : Leave) :
    Inv { s with
      kernel := setProc s.kernel i (leave (s.kernel.proc i) how),
      lock := Function.update s.lock i (some c) } := by
  refine ⟨inv.exclusive, fun j d held => ?_, fun d j hd free => ?_, fun j running => ?_⟩
  · by_cases hj : j = i
    · subst hj
      simp only [Function.update_self, Option.some.injEq] at held
      exact held ▸ here
    · exact inv.holder j d (by simpa [hj] using held)
  · have hj : j ≠ i := by
      rintro rfl
      simp at free
    rw [setProc_state, if_neg hj]
    exact inv.marked d j hd (by simpa [hj] using free)
  · rw [setProc_state] at running
    split at running
    · exact absurd running (leave_state _ how)
    · exact inv.executed j running

theorem Inv.swtch {s : Machine cpus} (inv : Inv s) {c : Fin cpus} {i : Slot}
    {back : OneCpuKernel.Caller} (here : s.control c = .process i back)
    (left : (s.kernel.proc i).state ≠ .running) :
    Inv { s with
      control := Function.update s.control c back.resume,
      lock := Function.update s.lock i none } := by
  have off : back.resume.myproc = none := by cases back <;> rfl
  have own : s.Executes c i := by simp [Machine.Executes, here, Control.myproc]
  have stays : ∀ d j, (⟨s.kernel, Function.update s.control c back.resume,
      Function.update s.lock i none⟩ : Machine cpus).Executes d j ↔ d ≠ c ∧ s.Executes d j := by
    intro d j
    rw [executes_update, off]
    by_cases hd : d = c <;> simp [hd]
  have others : ∀ d j, s.Executes d j → j ≠ i → d ≠ c := by
    rintro d j hd hj rfl
    exact hj (Option.some.inj (hd.symm.trans own))
  constructor
  · intro d d' j hd hd'
    exact inv.exclusive d d' j ((stays d j).mp hd).2 ((stays d' j).mp hd').2
  · intro j d held
    have hj : j ≠ i := by
      rintro rfl
      simp at held
    have hd := inv.holder j d (by simpa [hj] using held)
    exact (stays d j).mpr ⟨others d j hd hj, hd⟩
  · intro d j hd free
    obtain ⟨away, before⟩ := (stays d j).mp hd
    have hj : j ≠ i := by
      rintro rfl
      exact away (inv.exclusive d c j before own)
    exact inv.marked d j before (by simpa [hj] using free)
  · intro j running
    have hj : j ≠ i := by
      rintro rfl
      exact left running
    obtain ⟨d, hd⟩ := inv.executed j running
    exact ⟨d, (stays d j).mpr ⟨others d j hd hj, hd⟩⟩

theorem touch_running (p : Proc) (how : Touch) :
    (touch p how).state = .running ↔ p.state = .running := by
  cases how <;> simp only [touch] <;> split <;> simp_all [freeproc]

theorem process_inv {s : Machine cpus} (inv : Inv s) {c : Fin cpus} {i : Slot}
    {back : OneCpuKernel.Caller} (here : s.control c = .process i back) (action : Action) :
    Inv (process s c i back action) := by
  have own : s.Executes c i := by simp [Machine.Executes, here, Control.myproc]
  cases action with
  | release =>
    simp only [process]
    split
    · rename_i h
      exact inv.release h.2
    · exact inv
  | leave how =>
    simp only [process]
    split
    · exact inv.leave own how
    · exact inv
  | swtch =>
    simp only [process]
    split
    · rename_i h
      exact inv.swtch here h.2
    · exact inv
  | startMLFQ m n => exact inv.kernel fun j => by rw [start_proc]
  | stopMLFQ => exact inv.kernel fun j => by rw [stop_proc]
  | advance | touch | kalloc | kfree => exact inv

theorem step_inv {s t : Machine cpus} {e : Event cpus} (inv : Inv s) (guarded : Guarded s e)
    (h : step s e = .ok t) : Inv t := by
  obtain ⟨c, action⟩ := e
  cases action with
  | advance stale =>
    cases advance_cases h with
    | waits => exact inv
    | block unswitched off off' => exact inv.block unswitched off off'
    | switch off free wants origin =>
      refine inv.switch off free ?_
      rcases origin with ⟨f, position⟩ | runnable
      · rw [position] at wants
        exact guarded stale f _ rfl position wants free
      · simp [runnable]
  | touch j how =>
    rw [← Except.ok.inj h]
    split
    · refine inv.kernel fun i => ?_
      rw [setProc_state]
      split
      · rename_i same
        rw [same]
        exact touch_running _ how
      · rfl
    · exact inv
  | kalloc =>
    rw [← Except.ok.inj h]
    exact inv.kernel fun _ => Iff.rfl
  | kfree a =>
    rw [← Except.ok.inj h]
    refine inv.kernel fun i => ?_
    simp only [kernelStep]
    split <;> rfl
  | release | leave | swtch | startMLFQ | stopMLFQ =>
    simp only [step] at h
    split at h
    · rename_i i back here
      rw [← Except.ok.inj h]
      exact process_inv inv here _
    · rw [← Except.ok.inj h]
      exact inv

/-- A step moves no CPU but its own. -/
theorem step_elsewhere {s t : Machine cpus} {e : Event cpus} (h : step s e = .ok t)
    {d : Fin cpus} (other : d ≠ e.cpu) : t.control d = s.control d := by
  obtain ⟨c, action⟩ := e
  cases action with
  | advance stale =>
    cases advance_cases h with
    | waits => rfl
    | block => exact Function.update_of_ne other ..
    | switch => exact Function.update_of_ne other ..
  | touch j how =>
    rw [← Except.ok.inj h]
    split <;> rfl
  | kalloc | kfree =>
    rw [← Except.ok.inj h]
    rfl
  | release | leave | startMLFQ | stopMLFQ =>
    simp only [step] at h
    split at h
    · rw [← Except.ok.inj h]
      simp only [process]
      try split <;> rfl
      try rfl
    · rw [← Except.ok.inj h]
  | swtch =>
    simp only [step] at h
    split at h
    · rw [← Except.ok.inj h]
      simp only [process]
      split
      · exact Function.update_of_ne other ..
      · rfl
    · rw [← Except.ok.inj h]

/-- `MLFQ_scheduler` switches to `p` as soon as it has the lock. -/
theorem dispatching_switches {s : Machine cpus} {c : Fin cpus} {f : Frame} {i : Slot}
    (position : s.control c = .dispatching f) (kept : f.p = some i) (free : s.lock i = none)
    (stale : Option Slot) :
    ∃ t, step s ⟨c, .advance stale⟩ = .ok t ∧ t.Executes c i := by
  have open_ : s.Free c := by
    intro j wanted
    rw [position] at wanted
    obtain rfl := Option.some.inj (kept.symm.trans wanted)
    exact free
  refine ⟨⟨dispatch s.kernel (some i), Function.update s.control c (.process i (.mlfq f)),
    Function.update s.lock i (some c)⟩, ?_, executes_update.mpr (by simp [Control.myproc])⟩
  simp only [step, advance, open_, ↓reduceIte, position, OneCpuKernel.advance, kept]
  rfl

theorem lawful_iff_guarded {s : Machine cpus} (e : Event cpus) (inv : Inv s) :
    Lawful s e ↔ Guarded s e := by
  constructor
  · intro lawful stale f i advances position kept free running
    obtain ⟨c, action⟩ := e
    obtain rfl : action = .advance stale := advances
    obtain ⟨t, ht, here⟩ := dispatching_switches position kept free stale
    obtain ⟨d, there⟩ := inv.executed i running
    have other : d ≠ c := by
      rintro rfl
      have position' : s.control d = .dispatching f := position
      simp [Machine.Executes, position', Control.myproc] at there
    have still : t.Executes d i := by
      unfold Machine.Executes
      rw [step_elsewhere ht other]
      exact there
    exact other ((lawful t ht).1 d c i still here)
  · intro guarded t ht
    have exclusive := (step_inv inv guarded ht).exclusive
    refine ⟨exclusive, fun c i now => ?_⟩
    by_cases before : s.Executes c i
    · exact Or.inl before
    · refine Or.inr fun d there => ?_
      have acting : c = e.cpu := by
        by_contra other
        unfold Machine.Executes at now
        rw [step_elsewhere ht other] at now
        exact before now
      have other : d ≠ c := by
        rintro rfl
        exact before there
      have still : t.Executes d i := by
        unfold Machine.Executes
        rw [step_elsewhere ht (acting ▸ other)]
        exact there
      exact other (exclusive d c i still now)

/-- On any number of CPUs, no process ever executes on two of them exactly when
every lock that `MLFQ_scheduler` acquires is of a process not marked running. -/
theorem exclusive_iff_guarded (cpus : Nat) (pages : List Addr) (es : List (Event cpus)) :
    Meets step Lawful (boot cpus pages) es ↔ Meets step Guarded (boot cpus pages) es :=
  meets_iff (fun _ _ _ inv guarded h => step_inv inv guarded h)
    (fun _ e inv => lawful_iff_guarded e inv) (boot_inv pages)

/-- CPU 0 runs the first process, which starts the MLFQ scheduler and yields; then
both CPUs reach the dispatch block, having selected the same process. -/
def selectedTwice : List (Event 2) :=
  List.map (Event.mk 0) ([.advance none, .advance none, .release, .startMLFQ 2 100,
    .leave .yield, .swtch] ++ List.replicate 69 (.advance none)) ++
  List.map (Event.mk 1) (List.replicate 5 (.advance none))

/-- The second CPU waits for the lock and does not look at the state again. -/
theorem both_cpus_execute :
    (Yields (run step (boot 2 [0, 1]) selectedTwice) fun s =>
      s.kernel.mlfqFlag = true ∧ s.control 0 = .dispatching ⟨some 0, 0⟩ ∧
        s.control 1 = .dispatching ⟨some 0, 0⟩ ∧ (s.kernel.proc 0).state = .runnable) ∧
    (Yields (run step (boot 2 [0, 1]) (selectedTwice ++
        [⟨0, .advance none⟩, ⟨1, .advance none⟩, ⟨0, .release⟩, ⟨1, .advance none⟩])) fun s =>
      s.Executes 0 0 ∧ s.Executes 1 0) := by
  decide +kernel

end MultiCpuDispatch
