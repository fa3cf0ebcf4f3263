import Xv6.ProcMoves

/-!
# The kernel on one CPU

`scheduler`, `RR_scheduler` and `MLFQ_scheduler` as one control that is at a
definite block, and the process that they switched to. The scheduler goes on
only after that process has given up the CPU, and a process makes calls only
while it is on the CPU. Interrupts are taken between any two steps.

A process that is switched to from a state other than `runnable` can only be
one that `MLFQ_scheduler` kept in `p`, or a stale element of its array.
-/

namespace OneCpuKernel

open ProcTable QueueStore FeedbackScheduler SchedulerRuns SchedulerBlocks ProcMoves EventRuns
open Outcomes

/-- What the scheduler does when the process it switched to comes back. -/
inductive Caller where
  | mlfq (f : Frame)
  /-- `RR_scheduler`, with the index of the next slot to look at. -/
  | rr (next : Nat)
  deriving DecidableEq

inductive Control where
  /-- The loop of `scheduler`. -/
  | outside
  /-- `while (mlfqFlag)`, then the tick block. -/
  | loop (f : Frame)
  | passing (f : Frame)
  | admitting (f : Frame)
  | choosing (f : Frame)
  | dispatching (f : Frame)
  | rr (next : Nat)
  /-- Process `i` is on the CPU. -/
  | process (i : Slot) (back : Caller)
  deriving DecidableEq

def Caller.resume : Caller → Control
  | .mlfq f => .loop f
  | .rr next => .rr next

def Control.myproc : Control → Option Slot
  | .process i _ => some i
  | _ => none

theorem Control.process_of_myproc {c : Control} {i : Slot} (h : c.myproc = some i) :
    ∃ back, c = .process i back := by
  cases c <;> simp_all [Control.myproc]

structure Machine where
  kernel : Kernel
  control : Control

/-- What the process on the CPU does; `yield` is also a timer interrupt. -/
inductive Call where
  | yield
  | sleep (chan : Chan)
  | wakeup (chan : Chan)
  | kill (pid : Int)
  | fork (memory copied : Bool)
  | exit (status : Int)
  | wait (delivered : Bool)
  | startMLFQ (m n : Int)
  | stopMLFQ
  | kalloc
  | kfree (a : Addr)

def Call.event (i : Slot) : Call → SchedulerRuns.Event
  | .yield => .yield i
  | .sleep chan => .sleep i chan
  | .wakeup chan => .wakeup (some i) chan
  | .kill pid => .kill pid
  | .fork memory copied => .fork i memory copied
  | .exit status => .exit i status
  | .wait delivered => .wait i delivered
  | .startMLFQ m n => .startMLFQ m n
  | .stopMLFQ => .stopMLFQ
  | .kalloc => .kalloc
  | .kfree a => .kfree a

inductive Event where
  /-- The next block of the scheduler; `stale` is what an element of
  `procs_with_highest_priority` holds that the iteration has not written. -/
  | advance (stale : Option Slot)
  /-- The handler of a device or timer interrupt wakes sleepers. -/
  | interrupt (chan : Chan)
  | call (c : Call)

/-- After `swtch` the process is on the CPU; without one the loop goes on. -/
def switched (back : Caller) : Option Slot → Control
  | none => back.resume
  | some i => .process i back

def advance (s : Machine) (stale : Option Slot) : Except Fault Machine :=
  let k := s.kernel
  match s.control with
  | .outside => .ok ⟨k, if k.mlfqFlag then .loop .entry else .rr 0⟩
  | .loop f =>
    if k.mlfqFlag then do
      let (k, expired) ← tickBlock k f.p
      pure ⟨k, if expired then .loop { f with p := none } else .passing f⟩
    else .ok ⟨k, .outside⟩
  | .passing f => do
    let k ← ruleFive k
    pure ⟨k, .admitting f⟩
  | .admitting f => do
    let k ← admissionScan k
    pure ⟨k, .choosing f⟩
  | .choosing f => .ok ⟨k, .dispatching (selectionBlock (select stale) k f)⟩
  | .dispatching f => .ok ⟨dispatch k f.p, switched (.mlfq f) f.p⟩
  | .rr next =>
    if h : next < nproc then
      let i : Slot := ⟨next, h⟩
      .ok ⟨rrKernel k i,
        switched (.rr (next + 1)) (if (k.proc i).state = .runnable then some i else none)⟩
    else .ok ⟨k, .outside⟩
  | .process _ _ => .ok s

/-- A call by the process on the CPU. When it is no longer running afterwards,
`sched` has switched back to the scheduler. -/
def call (s : Machine) (c : Call) : Machine :=
  match s.control with
  | .process i back =>
    let k := kernelStep s.kernel (c.event i)
    ⟨k, if (k.proc i).state = .running then .process i back else back.resume⟩
  | _ => s

def step (s : Machine) : Event → Except Fault Machine
  | .advance stale => advance s stale
  | .interrupt chan =>
    .ok ⟨kernelStep s.kernel (.wakeup s.control.myproc chan), s.control⟩
  | .call c => .ok (call s c)

def boot (pages : List Addr) : Machine := ⟨(SchedulerRuns.boot pages).kernel, .outside⟩

/-- A process that left in `exit` is on the CPU again: `sched` returns there
and the next statement is `panic("zombie exit")`. -/
def Panicked (k : Kernel) : Prop :=
  ∃ i, (k.proc i).state = .running ∧ (k.proc i).context = .exit

/-- An iteration starts with `p` empty or runnable, and a choice among several
candidates is made with `rr_index` below their number. -/
def Orderly (s : Machine) : Event → Prop
  | .advance _ =>
    match s.control with
    | .loop f => s.kernel.mlfqFlag = true →
        ∀ i, f.p = some i → (s.kernel.proc i).state = .runnable
    | .choosing f => f.p = none → 1 < (procsWithHighestPriority s.kernel).length →
        f.rrIndex < (procsWithHighestPriority s.kernel).length
    | _ => True
  | _ => True

instance : ∀ s e, Decidable (Orderly s e)
  | ⟨k, .loop f⟩, .advance _ => inferInstanceAs (Decidable (k.mlfqFlag = true →
      ∀ i, f.p = some i → (k.proc i).state = .runnable))
  | ⟨k, .choosing f⟩, .advance _ => inferInstanceAs (Decidable (f.p = none →
      1 < (procsWithHighestPriority k).length →
        f.rrIndex < (procsWithHighestPriority k).length))
  | ⟨_, .outside⟩, .advance _ | ⟨_, .passing _⟩, .advance _ | ⟨_, .admitting _⟩, .advance _
  | ⟨_, .dispatching _⟩, .advance _ | ⟨_, .rr _⟩, .advance _ | ⟨_, .process _ _⟩, .advance _
  | _, .interrupt _ | _, .call _ => isTrue trivial

/-- Without interrupts the blocks of the MLFQ loop make up its iteration. -/
theorem blocks_make_iteration {k k' : Kernel} {f f' : Frame} {stale : Option Slot}
    (flag : k.mlfqFlag = true) (h : iteration (select stale) k f = .ok (k', f')) :
    ∃ n, run step ⟨k, .loop f⟩ (List.replicate n (.advance stale)) =
      .ok ⟨k', switched (.mlfq f') f'.p⟩ := by
  obtain ⟨⟨k₁, expired⟩, ht, h⟩ := bind_eq_ok.mp h
  have first : step ⟨k, .loop f⟩ (.advance stale) =
      .ok ⟨k₁, if expired then .loop { f with p := none } else .passing f⟩ := by
    simp only [step, advance, flag, ↓reduceIte]
    rw [ht]
    rfl
  cases expired with
  | true =>
    obtain ⟨rfl, rfl⟩ := Prod.mk.inj (pure_eq_ok.mp h)
    exact ⟨1, run_cons_ok.mpr ⟨_, first, rfl⟩⟩
  | false =>
    obtain ⟨k₂, h₂, h⟩ := bind_eq_ok.mp h
    obtain ⟨k₃, h₃, h⟩ := bind_eq_ok.mp h
    obtain ⟨rfl, rfl⟩ := Prod.mk.inj (pure_eq_ok.mp h)
    have second : step ⟨k₁, .passing f⟩ (.advance stale) = .ok ⟨k₂, .admitting f⟩ := by
      simp only [step, advance]
      rw [h₂]
      rfl
    have third : step ⟨k₂, .admitting f⟩ (.advance stale) = .ok ⟨k₃, .choosing f⟩ := by
      simp only [step, advance]
      rw [h₃]
      rfl
    refine ⟨5, run_cons_ok.mpr ⟨_, first, run_cons_ok.mpr ⟨_, second, ?_⟩⟩⟩
    exact run_cons_ok.mpr ⟨_, third, rfl⟩

/-- In an iteration that starts with `p` kept and off the CPU, the switch is
from the state that `p` had at the start: nothing in between looks at it. -/
theorem kept_is_switched_to {choose : Selection} {k k' : Kernel} {f f' : Frame} {i : Slot}
    (kept : f.p = some i) (off : (k.proc i).state ≠ .runnable ∧ (k.proc i).state ≠ .running)
    (h : iteration choose k f = .ok (k', f')) :
    k'.log.head? = some (.dispatched i (k.proc i).state) := by
  rcases iteration_parts h with ⟨j, hp, hs, -, -⟩ | ⟨k₁, k₂, k₃, h₁, h₂, h₃, hf', rfl⟩
  · obtain rfl := Option.some.inj (kept.symm.trans hp)
    exact absurd hs (by simp [off])
  have same₁ : (k₁.proc i).state = (k.proc i).state := by
    rcases h₁ with ⟨rfl, -⟩ | ⟨j, -, -, hc⟩
    · rfl
    · exact (charge_unswitched hc).state i
  have same : (k₃.proc i).state = (k.proc i).state :=
    (((ruleFive_unswitched h₂).trans (admissionScan_unswitched h₃)).state i).trans same₁
  have still : f'.p = some i := by
    rw [hf', selectionBlock, kept]
    exact kept
  rw [still, dispatch_log, same]
  rfl

/-- The process that the scheduler is about to switch to. -/
def Control.chosen : Control → Option Slot
  | .passing f | .admitting f | .choosing f | .dispatching f => f.p
  | _ => none

/-- The slot whose lock the next block acquires. -/
def Control.wants : Control → Option Slot
  | .dispatching f => f.p
  | .rr next => if h : next < nproc then some ⟨next, h⟩ else none
  | _ => none

/-- Every step, by what it does to the slots. -/
inductive Stepped : Event → Machine → Machine → Prop
  | stays {stale : Option Slot} {k : Kernel} {i : Slot} {back : Caller} :
      Stepped (.advance stale) ⟨k, .process i back⟩ ⟨k, .process i back⟩
  | block {stale : Option Slot} {k k' : Kernel} {c c' : Control} (h : Unswitched k k')
      (off : c.myproc = none) (off' : c'.myproc = none)
      (chosen : Orderly ⟨k, c⟩ (.advance stale) → ∀ i, c'.chosen = some i →
        c.chosen = some i ∨ (k.proc i).state = .runnable) :
      Stepped (.advance stale) ⟨k, c⟩ ⟨k', c'⟩
  | switch {stale : Option Slot} {k : Kernel} {c : Control} {i : Slot} {back : Caller}
      (off : c.myproc = none) (wants : c.wants = some i)
      (origin : (∃ f, c = .dispatching f) ∨ (k.proc i).state = .runnable) :
      Stepped (.advance stale) ⟨k, c⟩ ⟨dispatch k (some i), .process i back⟩
  | interrupted {chan : Chan} {k : Kernel} {c : Control} :
      Stepped (.interrupt chan) ⟨k, c⟩ ⟨kernelStep k (.wakeup c.myproc chan), c⟩
  | ignored {call : Call} {k : Kernel} {c : Control} (off : c.myproc = none) :
      Stepped (.call call) ⟨k, c⟩ ⟨k, c⟩
  | called {call : Call} {k : Kernel} {i : Slot} {back : Caller} :
      Stepped (.call call) ⟨k, .process i back⟩
        ⟨kernelStep k (call.event i),
          if ((kernelStep k (call.event i)).proc i).state = .running
          then .process i back else back.resume⟩

theorem advance_stepped {k : Kernel} {c : Control} {stale : Option Slot} {t : Machine}
    (h : advance ⟨k, c⟩ stale = .ok t) : Stepped (.advance stale) ⟨k, c⟩ t := by
  cases c with
  | outside =>
    rw [← Except.ok.inj h]
    refine .block (Unswitched.refl k) rfl ?_ fun _ => ?_
    · simp only
      split <;> rfl
    · simp only
      split <;> simp [Control.chosen]
  | loop f =>
    simp only [advance] at h
    split at h
    · rename_i flag
      obtain ⟨⟨k₁, expired⟩, ht, h⟩ := bind_eq_ok.mp h
      rw [← pure_eq_ok.mp h]
      refine .block (tickBlock_unswitched ht) rfl ?_ fun orderly i hc => ?_
      · cases expired <;> rfl
      · cases expired with
        | true => cases hc
        | false => exact Or.inr (orderly flag i hc)
    · rw [← Except.ok.inj h]
      exact .block (Unswitched.refl k) rfl rfl (by simp [Control.chosen])
  | passing f =>
    obtain ⟨k₂, h₂, h⟩ := bind_eq_ok.mp h
    rw [← pure_eq_ok.mp h]
    exact .block (ruleFive_unswitched h₂) rfl rfl fun _ _ => Or.inl
  | admitting f =>
    obtain ⟨k₃, h₃, h⟩ := bind_eq_ok.mp h
    rw [← pure_eq_ok.mp h]
    exact .block (admissionScan_unswitched h₃) rfl rfl fun _ _ => Or.inl
  | choosing f =>
    rw [← Except.ok.inj h]
    refine .block (Unswitched.refl k) rfl rfl fun orderly i hc => ?_
    cases hp : f.p with
    | some j =>
      simp only [Control.chosen, selectionBlock, hp] at hc
      exact Or.inl (hp.trans hc)
    | none =>
      simp only [Control.chosen, selectionBlock, hp] at hc
      exact Or.inr (candidate_runnable (select_candidate (orderly hp) hc))
  | dispatching f =>
    rw [← Except.ok.inj h]
    cases hp : f.p with
    | none =>
      exact .block (Unswitched.refl k) rfl rfl
        (by simp [switched, Caller.resume, Control.chosen])
    | some i => exact .switch rfl hp (Or.inl ⟨f, rfl⟩)
  | rr next =>
    simp only [advance] at h
    split at h
    · rename_i inTable
      rw [← Except.ok.inj h]
      by_cases runnable : (k.proc ⟨next, inTable⟩).state = .runnable
      · have wants : (Control.rr next).wants = some ⟨next, inTable⟩ := dif_pos inTable
        simpa only [rrKernel, runnable, ↓reduceIte] using .switch rfl wants (Or.inr runnable)
      · have passed : Stepped (.advance stale) ⟨k, .rr next⟩ ⟨k, .rr (next + 1)⟩ :=
          .block (Unswitched.refl k) rfl rfl (by simp [Control.chosen])
        simpa only [rrKernel, runnable, ↓reduceIte, switched, Caller.resume] using passed
    · rw [← Except.ok.inj h]
      exact .block (Unswitched.refl k) rfl rfl (by simp [Control.chosen])
  | process i back =>
    rw [← Except.ok.inj h]
    exact .stays

/-- Inversion of a step. -/
theorem step_cases {s t : Machine} {e : Event} (h : step s e = .ok t) : Stepped e s t := by
  obtain ⟨k, c⟩ := s
  cases e with
  | advance stale => exact advance_stepped h
  | interrupt chan =>
    rw [← Except.ok.inj h]
    exact .interrupted
  | call e =>
    rw [← Except.ok.inj h]
    cases c with
    | process i back => exact .called
    | _ => exact .ignored rfl

structure Inv (s : Machine) : Prop where
  marks : ∀ i state, .dispatched i state ∈ s.kernel.log → state = .runnable
  exits : ∀ i, (s.kernel.proc i).context = .exit →
    (s.kernel.proc i).state = .zombie ∨ (s.kernel.proc i).state = .unused
  chosen : ∀ i, s.control.chosen = some i → (s.kernel.proc i).state = .runnable
  alone : ∀ i, (s.kernel.proc i).state = .running ↔ s.control.myproc = some i

theorem boot_inv (pages : List Addr) : Inv (boot pages) := by
  have states : ∀ i, ((boot []).kernel.proc i).context ≠ .exit ∧
      ((boot []).kernel.proc i).state ≠ .running := by decide +kernel
  refine ⟨nofun, ?_, nofun, ?_⟩
  · intro i h
    exact absurd h (states i).1
  · intro i
    exact ⟨fun h => absurd h (states i).2, nofun⟩

theorem Call.no_switch (c : Call) (i j : Slot) : c.event i ≠ .rr j := by
  cases c <;> nofun

/-- Wherever the scheduler is, an interrupt only makes sleepers runnable. -/
theorem Inv.interrupt {k : Kernel} {c : Control} (inv : Inv ⟨k, c⟩) (chan : Chan) :
    Inv ⟨kernelStep k (.wakeup c.myproc chan), c⟩ := by
  have moves := kernelStep_move k (.wakeup c.myproc chan)
  constructor
  · intro i state h
    exact (kernelStep_switches h).elim (inv.marks i state) id
  · intro i
    exact (moves i).exits (inv.exits i)
  · intro i h
    exact (moves i).runnable nofun (inv.chosen i h)
  · intro i
    rw [← inv.alone i]
    constructor
    · exact (moves i).running nofun
    · intro running
      cases moves i <;> simp_all

theorem Inv.block {k k' : Kernel} {c c' : Control} (inv : Inv ⟨k, c⟩) (h : Unswitched k k')
    (off : c.myproc = none) (off' : c'.myproc = none)
    (chosen : ∀ i, c'.chosen = some i → c.chosen = some i ∨ (k.proc i).state = .runnable) :
    Inv ⟨k', c'⟩ := by
  constructor
  · exact fun i state hm => inv.marks i state (h.switches hm)
  · intro i hc
    rw [h.state i]
    exact inv.exits i (h.context i ▸ hc)
  · intro i hc
    rw [h.state i]
    exact (chosen i hc).elim (inv.chosen i) id
  · intro i
    rw [h.state i, off', ← off]
    exact inv.alone i

theorem Inv.switch {k : Kernel} {c : Control} {i : Slot} (inv : Inv ⟨k, c⟩)
    (off : c.myproc = none) (runnable : (k.proc i).state = .runnable) (back : Caller) :
    Inv ⟨dispatch k (some i), .process i back⟩ := by
  constructor
  · intro j state h
    rw [dispatch_log, List.mem_cons, Mark.dispatched.injEq] at h
    rcases h with ⟨-, rfl⟩ | old
    · exact runnable
    · exact inv.marks j state old
  · intro j h
    have before : (k.proc j).context = .exit := by
      by_cases hj : j = i
      · subst hj
        simpa [dispatch, Kernel.note, swtchTo] using h
      · simpa [dispatch, Kernel.note, hj] using h
    have dead := inv.exits j before
    have other : j ≠ i := by
      rintro rfl
      simp [runnable] at dead
    rw [dispatch_state, if_neg other]
    exact dead
  · intro j h
    cases h
  · intro j
    have idle : ¬ (k.proc j).state = .running := by
      intro running
      have here := (inv.alone j).mp running
      simp [off] at here
    rw [dispatch_state]
    by_cases hj : j = i
    · simp [hj, Control.myproc]
    · simp [hj, idle, Control.myproc, Ne.symm hj]

/-- A call changes the caller, and the others only by waking or reaping them. -/
theorem Inv.call {k : Kernel} {i : Slot} {back : Caller} (inv : Inv ⟨k, .process i back⟩)
    (c : Call) : Inv ⟨kernelStep k (c.event i),
      if ((kernelStep k (c.event i)).proc i).state = .running
      then .process i back else back.resume⟩ := by
  have moves := kernelStep_move k (c.event i)
  have alone : ∀ j, ((kernelStep k (c.event i)).proc j).state = .running → j = i := by
    intro j running
    have here := (inv.alone j).mp ((moves j).running (c.no_switch i j) running)
    exact (Option.some.inj here).symm
  have marks : ∀ j state, .dispatched j state ∈ (kernelStep k (c.event i)).log →
      state = .runnable :=
    fun j state h => (kernelStep_switches h).elim (inv.marks j state) id
  have exits := fun j => (moves j).exits (inv.exits j)
  split
  · rename_i running
    refine ⟨marks, exits, nofun, fun j => ⟨?_, ?_⟩⟩
    · intro h
      rw [alone j h]
      rfl
    · intro h
      rw [← Option.some.inj h]
      exact running
  · rename_i left
    refine ⟨marks, exits, ?_, fun j => ⟨?_, ?_⟩⟩
    · cases back <;> nofun
    · intro h
      exact absurd (alone j h ▸ h) left
    · cases back <;> nofun

/-- The process that a switch is to was runnable. -/
theorem Inv.target {k : Kernel} {c : Control} {i : Slot} (inv : Inv ⟨k, c⟩)
    (wants : c.wants = some i)
    (origin : (∃ f, c = .dispatching f) ∨ (k.proc i).state = .runnable) :
    (k.proc i).state = .runnable := by
  rcases origin with ⟨f, rfl⟩ | runnable
  · exact inv.chosen i wants
  · exact runnable

theorem step_inv {s t : Machine} {e : Event} (inv : Inv s) (orderly : Orderly s e)
    (h : step s e = .ok t) : Inv t := by
  cases step_cases h with
  | stays => exact inv
  | block unswitched off off' chosen => exact inv.block unswitched off off' (chosen orderly)
  | switch off wants origin => exact inv.switch off (inv.target wants origin) _
  | interrupted => exact inv.interrupt _
  | ignored => exact inv
  | called => exact inv.call _

/-- The steps that call `wakeup`, and `kill`. -/
def Awakens : Event → Prop
  | .interrupt _ | .call (.wakeup _) | .call (.kill _) | .call (.exit _) => True
  | _ => False

/-- How a step may change the state of one slot. -/
structure Lawful (e : Event) (p p' : Proc) : Prop where
  resumed : p'.state = .running → p.state = .running ∨ p.state = .runnable
  sleeping : p.state = .sleeping →
    p'.state = .sleeping ∨ p'.state = .runnable ∧ Awakens e
  zombie : p.state = .zombie → p'.state = .zombie ∨ p'.state = .unused
  unused : p.state = .unused → p'.state = .unused ∨ p'.state = .runnable

theorem lawful_of_state {e : Event} {p p' : Proc} (h : p'.state = p.state) :
    Lawful e p p' := by
  constructor <;> intro hp <;> simp_all

theorem lawful_of_switch {k : Kernel} {e : Event} {i : Slot}
    (runnable : (k.proc i).state = .runnable) (j : Slot) :
    Lawful e (k.proc j) ((dispatch k (some i)).proc j) := by
  by_cases hj : j = i
  · subst hj
    constructor <;> simp [runnable, dispatch_state]
  · exact lawful_of_state (by simp [dispatch_state, hj])

theorem call_lawful {i j : Slot} {c : Call} {p p' : Proc} (m : Move (c.event i) j p p') :
    Lawful (.call c) p p' := by
  have awakens : Wakes (c.event i) → Awakens (.call c) := by
    cases c <;> simp [Call.event, Wakes, Awakens]
  have noSwitch := c.no_switch i j
  cases m with
  | forked call before after =>
    have outcome := after.imp_right And.left
    constructor <;> intro hp <;> simp_all
  | _ => constructor <;> intro hp <;> simp_all

theorem interrupt_lawful {self : Option Slot} {chan : Chan} {j : Slot} {p p' : Proc}
    (m : Move (.wakeup self chan) j p p') : Lawful (.interrupt chan) p p' := by
  cases m <;> constructor <;> intro hp <;> simp_all [Awakens]

theorem step_lawful {s t : Machine} {e : Event} (inv : Inv s) (h : step s e = .ok t)
    (j : Slot) : Lawful e (s.kernel.proc j) (t.kernel.proc j) := by
  cases step_cases h with
  | stays | ignored => exact lawful_of_state rfl
  | block unswitched => exact lawful_of_state (unswitched.state j)
  | switch off wants origin => exact lawful_of_switch (inv.target wants origin) j
  | interrupted => exact interrupt_lawful (kernelStep_move _ _ j)
  | called => exact call_lawful (kernelStep_move _ _ j)

/-- In every run whose iterations start in order, each switch is to a runnable
process, sleepers run only after a wakeup or a kill, and nothing that has
exited or was never made runs. -/
theorem resumes_runnable (pages : List Addr) {es : List Event} {s : Machine}
    (orderly : Meets step Orderly (boot pages) es) (h : run step (boot pages) es = .ok s) :
    (∀ i state, .dispatched i state ∈ s.kernel.log → state = .runnable) ∧
      ¬ Panicked s.kernel ∧
      ∀ e t, step s e = .ok t → ∀ j, Lawful e (s.kernel.proc j) (t.kernel.proc j) := by
  have inv : Inv s :=
    run_invariant (fun _ _ _ inv orderly h => step_inv inv orderly h) (boot_inv pages) orderly h
  refine ⟨inv.marks, ?_, fun e t hs j => step_lawful inv hs j⟩
  rintro ⟨i, running, context⟩
  have dead := inv.exits i context
  simp [running] at dead

/-- `init` makes a child and starts the MLFQ scheduler with two levels; after it
yields, `RR_scheduler` runs the child, which yields too. -/
def startRun : List Event :=
  [.advance none, .advance none, .call (.fork true true), .call (.startMLFQ 2 100),
    .call .yield, .advance none, .call .yield] ++ List.replicate 64 (.advance none)

/-- One iteration of the MLFQ loop and the call that the process then makes. -/
def turn (c : Call) : List Event := List.replicate 5 (.advance none) ++ [.call c]

theorem resumes_runnable_first : ∃ s,
    run step (boot [0, 1, 2, 3]) (startRun ++ turn .yield) = .ok s ∧
      (∀ i state, .dispatched i state ∈ s.kernel.log → state = .runnable) ∧
      ¬ Panicked s.kernel ∧
      ∀ e t, step s e = .ok t → ∀ j, Lawful e (s.kernel.proc j) (t.kernel.proc j) := by
  have ends : Yields (run step (boot [0, 1, 2, 3]) (startRun ++ turn .yield))
      fun s => s.kernel.mlfqFlag = true := by decide +kernel
  obtain ⟨s, hs, -⟩ := ends
  exact ⟨s, hs, resumes_runnable [0, 1, 2, 3] (by decide +kernel) hs⟩

instance (k : Kernel) : Decidable (Panicked k) := inferInstanceAs (Decidable (∃ _, _))

/-- `p` is kept when its process goes to sleep or exits: the sleeper is switched
to although nothing woke it, and the exited child returns into `exit`. -/
theorem sleepers_and_zombies_resume :
    (Yields (run step (boot [0, 1, 2, 3])
        (startRun ++ turn (.sleep .ticks) ++ List.replicate 5 (.advance none))) fun s =>
      s.kernel.mlfqFlag = true ∧ .dispatched 0 .sleeping ∈ s.kernel.log) ∧
    (Yields (run step (boot [0, 1, 2, 3])
        (startRun ++ turn .yield ++ turn .yield ++ [.advance none] ++ turn (.exit 0) ++
          List.replicate 5 (.advance none))) fun s =>
      s.kernel.mlfqFlag = true ∧ .dispatched 1 .zombie ∈ s.kernel.log ∧
        Panicked s.kernel) := by
  decide +kernel

end OneCpuKernel
