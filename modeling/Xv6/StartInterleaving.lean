import Xv6.Lib.Histories
import Xv6.OneCpuKernel

/-!
# startMLFQ and stopMLFQ, statement by statement

System calls run with interrupts enabled, so the process on the CPU may be
preempted between any two statements of `startMLFQ` or `stopMLFQ`. The machine
here is the kernel on one CPU with the calls that are under way. The statement
that ends the loop over the heads is the last one that touches shared memory,
and the call returns with it.
-/

namespace StartInterleaving

open ProcTable QueueStore FeedbackScheduler SchedulerRuns SchedulerBlocks ProcMoves
open EventRuns Outcomes Histories

/-- The next statement of a `startMLFQ` call. -/
inductive Statement where
  /-- `if (mlfqFlag) return -1;` -/
  | test
  /-- `mlfqFlag = 1;` -/
  | publish
  | storeM
  | storeN
  /-- `mlfqQueues[l].head = 0;` -/
  | clear (l : Level)
  deriving DecidableEq

/-- A `startMLFQ` call under way, with the arguments it has fetched. -/
structure Start where
  m : Int
  n : Int
  next : Statement
  deriving DecidableEq

inductive Syscall where
  | start (c : Start)
  /-- `if (!mlfqFlag) return -1;` -/
  | stopTest
  /-- `mlfqFlag = 0;` -/
  | stopStore
  deriving DecidableEq

/-- A `startMLFQ` call that has returned. -/
structure Return where
  result : Int
  m : Int
  n : Int
  deriving DecidableEq

/-- `cleared` and `returned` are history: the heads cleared since the flag was
last set, and the `startMLFQ` calls that returned since it was last cleared. -/
structure Machine where
  cpu : OneCpuKernel.Machine
  calls : Slot → Option Syscall
  cleared : Level → Bool
  returned : List Return

inductive Event where
  /-- The scheduler, an interrupt, or another call of the process on the CPU. -/
  | cpu (e : OneCpuKernel.Event)
  /-- The process on the CPU enters the system call. -/
  | startMLFQ (m n : Int)
  | stopMLFQ
  /-- It performs the next statement of its call. -/
  | statement

/-- The call of the process on the CPU. -/
def Machine.current (s : Machine) : Option Syscall := s.cpu.control.myproc.bind s.calls

/-- Its `startMLFQ` call. -/
def Machine.startCall (s : Machine) : Option Start :=
  s.current.bind fun
    | .start c => some c
    | _ => none

theorem startCall_eq_some {s : Machine} {c : Start} :
    s.startCall = some c ↔ s.current = some (.start c) := by
  unfold Machine.startCall
  rcases s.current with _ | (d | _ | _) <;> simp

def Machine.setKernel (s : Machine) (k : Kernel) : Machine :=
  { s with cpu := { s.cpu with kernel := k } }

def Machine.setCall (s : Machine) (i : Slot) (call : Option Syscall) : Machine :=
  { s with calls := Function.update s.calls i call }

/-- Inside a call a process does nothing else, but it can be preempted. -/
def permitted (s : Machine) : OneCpuKernel.Event → Bool
  | .call (.startMLFQ _ _) | .call .stopMLFQ => false
  | .call .yield => true
  | .call _ => s.current = none
  | _ => true

/-- Setting a flag that is set already begins no session. -/
def publish (k : Kernel) (m n : Int) : Kernel :=
  if k.mlfqFlag then k else { k with mlfqFlag := true, log := .started m n :: k.log }

def unpublish (k : Kernel) : Kernel :=
  if k.mlfqFlag then { k with mlfqFlag := false, log := .stopped :: k.log } else k

/-- The next statement of the call `c` of process `i`. -/
def startStatement (s : Machine) (i : Slot) (c : Start) : Machine :=
  let k := s.cpu.kernel
  let go (next : Statement) := fun s : Machine =>
    s.setCall i (some (.start { c with next := next }))
  let done (result : Int) := fun s : Machine =>
    { s.setCall i none with returned := ⟨result, c.m, c.n⟩ :: s.returned }
  match c.next with
  | .test => if k.mlfqFlag then done (-1) s else go .publish s
  | .publish => go .storeM { s.setKernel (publish k c.m c.n) with cleared := fun _ => false }
  | .storeM => go .storeN (s.setKernel { k with m := c.m })
  | .storeN => go (.clear 0) (s.setKernel { k with n := c.n })
  | .clear l =>
    let s := { s.setKernel (k.setStore (k.store.setHead l none)) with
      cleared := Function.update s.cleared l true }
    if h : l.val + 1 < mlfqMaxLevel then go (.clear ⟨l.val + 1, h⟩) s else done 0 s

def statement (s : Machine) (i : Slot) : Syscall → Machine
  | .start c => startStatement s i c
  | .stopTest =>
    s.setCall i (if s.cpu.kernel.mlfqFlag then some .stopStore else none)
  | .stopStore =>
    { (s.setKernel (unpublish s.cpu.kernel)).setCall i none with returned := [] }

/-- The process on the CPU enters a call. -/
def enter (s : Machine) (call : Syscall) : Machine :=
  match s.cpu.control.myproc with
  | some i => if s.calls i = none then s.setCall i (some call) else s
  | none => s

def step (s : Machine) : Event → Except Fault Machine
  | .cpu e =>
    if permitted s e then do
      let c ← OneCpuKernel.step s.cpu e
      pure { s with cpu := c }
    else .ok s
  | .startMLFQ m n => .ok (enter s (.start ⟨m, n, .test⟩))
  | .stopMLFQ => .ok (enter s .stopTest)
  | .statement =>
    match s.cpu.control.myproc with
    | none => .ok s
    | some i => match s.calls i with
      | none => .ok s
      | some call => .ok (statement s i call)

def boot (pages : List Addr) : Machine where
  cpu := OneCpuKernel.boot pages
  calls := fun _ => none
  cleared := fun _ => false
  returned := []

theorem step_statement {s : Machine} {i : Slot} {call : Syscall}
    (here : s.cpu.control.myproc = some i) (own : s.calls i = some call) :
    step s .statement = .ok (statement s i call) := by
  simp only [step, here, own]

/-- The heads from `l` on cleared. -/
def clearFrom (k : Kernel) (l : Level) : Kernel :=
  k.setStore { k.store with head := fun l' => if l ≤ l' then none else k.store.head l' }

theorem clearFrom_next (k : Kernel) (l : Level) (more : l.val + 1 < mlfqMaxLevel) :
    clearFrom (k.setStore (k.store.setHead l none)) ⟨l.val + 1, more⟩ = clearFrom k l := by
  have heads : ∀ l' : Level, (if (⟨l.val + 1, more⟩ : Level) ≤ l' then none
      else Function.update k.store.head l none l') = if l ≤ l' then none else k.store.head l' := by
    intro l'
    rcases lt_trichotomy l l' with below | rfl | above
    · simp [Fin.le_def, Nat.succ_le_of_lt below, le_of_lt below]
    · simp
    · have out : ¬ l.val + 1 ≤ l'.val := by
        rw [Fin.lt_def] at above
        omega
      simp [Fin.le_def, not_le_of_gt above, ne_of_lt above, out]
  simp [clearFrom, Kernel.setStore, Store.setHead, heads]

theorem clearFrom_last (k : Kernel) (l : Level) (last : ¬ l.val + 1 < mlfqMaxLevel) :
    k.setStore (k.store.setHead l none) = clearFrom k l := by
  have heads : Function.update k.store.head l none =
      fun l' => if l ≤ l' then none else k.store.head l' := by
    funext l'
    have := l'.isLt
    by_cases same : l' = l
    · simp [same]
    · have above : ¬ l ≤ l' := by
        rw [Fin.le_def]
        rw [Fin.ext_iff] at same
        omega
      simp [same, above]
  simp [clearFrom, Kernel.setStore, Store.setHead, heads]

theorem clears_run {i : Slot} {m n : Int} (l : Level) {s : Machine}
    (here : s.cpu.control.myproc = some i)
    (own : s.calls i = some (.start ⟨m, n, .clear l⟩)) :
    ∃ count t, run step s (List.replicate count .statement) = .ok t ∧
      t.cpu = ⟨clearFrom s.cpu.kernel l, s.cpu.control⟩ ∧
      t.calls = Function.update s.calls i none ∧ t.returned = ⟨0, m, n⟩ :: s.returned := by
  induction hd : mlfqMaxLevel - l.val generalizing l s with
  | zero =>
    have := l.isLt
    omega
  | succ d ih =>
    have first := step_statement here own
    by_cases more : l.val + 1 < mlfqMaxLevel
    · obtain ⟨r, hr, cpu, calls, returned⟩ : ∃ r, r = statement s i (.start ⟨m, n, .clear l⟩) ∧
          r.cpu = ⟨s.cpu.kernel.setStore (s.cpu.kernel.store.setHead l none), s.cpu.control⟩ ∧
          r.calls = Function.update s.calls i (some (.start ⟨m, n, .clear ⟨l.val + 1, more⟩⟩)) ∧
          r.returned = s.returned := by
        refine ⟨_, rfl, ?_⟩
        simp only [statement, startStatement, more, ↓reduceDIte]
        exact ⟨rfl, rfl, rfl⟩
      rw [← hr] at first
      have rest := ih ⟨l.val + 1, more⟩ (s := r) (by rw [cpu]; exact here) (by simp [calls])
        (by simp only; omega)
      obtain ⟨count, t, ht, cpu', calls', returned'⟩ := rest
      refine ⟨count + 1, t, run_cons_ok.mpr ⟨r, first, ht⟩, ?_, ?_, ?_⟩
      · rw [cpu', cpu]
        simp only [clearFrom_next]
      · rw [calls', calls, Function.update_idem]
      · rw [returned', returned]
    · simp only [statement, startStatement, more, ↓reduceDIte] at first
      refine ⟨1, _, run_cons_ok.mpr ⟨_, first, rfl⟩, ?_, rfl, rfl⟩
      rw [← clearFrom_last s.cpu.kernel l more]
      rfl

/-- The statements of a call that is not preempted make up `startMLFQ`. -/
theorem statements_make_startMLFQ {s : Machine} {i : Slot}
    (here : s.cpu.control.myproc = some i) (free : s.calls i = none) (m n : Int) :
    ∃ count t, run step s (.startMLFQ m n :: List.replicate count .statement) = .ok t ∧
      t.cpu = ⟨(startMLFQ s.cpu.kernel m n).2, s.cpu.control⟩ ∧ t.calls = s.calls ∧
      t.returned = ⟨(startMLFQ s.cpu.kernel m n).1, m, n⟩ :: s.returned := by
  have entered : step s (.startMLFQ m n) = .ok (s.setCall i (some (.start ⟨m, n, .test⟩))) := by
    simp only [step, enter, here, free, ↓reduceIte]
  have restored : Function.update s.calls i none = s.calls := by
    rw [← free, Function.update_eq_self]
  have tested := step_statement (s := s.setCall i (some (.start ⟨m, n, .test⟩))) here
    (Function.update_self ..)
  cases flag : s.cpu.kernel.mlfqFlag with
  | true =>
    refine ⟨1, _, run_cons_ok.mpr ⟨_, entered, run_cons_ok.mpr ⟨_, tested, rfl⟩⟩, ?_⟩
    simp only [statement, startStatement, Machine.setCall, flag, ↓reduceIte,
      Function.update_idem, restored]
    simp [startMLFQ, flag]
  | false =>
    have published : ∃ r, run step s (.startMLFQ m n :: List.replicate 4 .statement) = .ok r ∧
        r.cpu = ⟨{ s.cpu.kernel with
          mlfqFlag := true, m := m, n := n, log := .started m n :: s.cpu.kernel.log },
          s.cpu.control⟩ ∧
        r.calls = Function.update s.calls i (some (.start ⟨m, n, .clear 0⟩)) ∧
        r.returned = s.returned := by
      simp only [statement, startStatement, Machine.setCall, flag, Bool.false_eq_true,
        ↓reduceIte, Function.update_idem] at tested
      refine ⟨_, run_cons_ok.mpr ⟨_, entered, run_cons_ok.mpr ⟨_, tested, run_cons_ok.mpr
        ⟨_, step_statement here (Function.update_self ..), run_cons_ok.mpr
        ⟨_, step_statement here (Function.update_self ..), run_cons_ok.mpr
        ⟨_, step_statement here (Function.update_self ..), rfl⟩⟩⟩⟩⟩, ?_, ?_, rfl⟩
      · simp [statement, startStatement, Machine.setCall, Machine.setKernel, publish, flag]
      · simp [statement, startStatement, Machine.setCall, Machine.setKernel]
    obtain ⟨r, hr, cpu, calls, returned⟩ := published
    have here' : r.cpu.control.myproc = some i := by
      rw [cpu]
      exact here
    have own : r.calls i = some (.start ⟨m, n, .clear 0⟩) := by simp [calls]
    obtain ⟨count, t, ht, cpu', calls', returned'⟩ := clears_run 0 here' own
    refine ⟨4 + count, t, ?_, ?_, ?_, ?_⟩
    · rw [List.replicate_add, ← List.cons_append]
      exact run_append_ok.mpr ⟨r, hr, ht⟩
    · rw [cpu', cpu]
      simp [startMLFQ, flag, clearFrom, Kernel.setStore]
    · rw [calls', calls, Function.update_idem, restored]
    · rw [returned', returned]
      simp [startMLFQ, flag]

/-- The call has set the flag and not yet stored or cleared everything. -/
def Statement.Published : Statement → Prop
  | .test | .publish => False
  | _ => True

instance : ∀ c, Decidable (Statement.Published c)
  | .test | .publish => isFalse id
  | .storeM | .storeN | .clear _ => isTrue trivial

/-- No `startMLFQ` call is preempted once it has set the flag, and none sets a
flag that another call has set since its own test. -/
def Undivided (s : Machine) : Event → Prop
  | .cpu (.call .yield) => ∀ c ∈ s.startCall, ¬ c.next.Published
  | .statement => ∀ c ∈ s.startCall, c.next = .publish → s.cpu.kernel.mlfqFlag = false
  | _ => True

instance : ∀ s e, Decidable (Undivided s e)
  | s, .cpu (.call .yield) =>
    inferInstanceAs (Decidable (∀ c ∈ s.startCall, ¬ c.next.Published))
  | s, .statement => inferInstanceAs (Decidable (∀ c ∈ s.startCall, c.next = .publish →
      s.cpu.kernel.mlfqFlag = false))
  | _, .cpu (.advance _) | _, .cpu (.interrupt _) | _, .cpu (.call (.sleep _))
  | _, .cpu (.call (.wakeup _)) | _, .cpu (.call (.kill _)) | _, .cpu (.call (.fork _ _))
  | _, .cpu (.call (.exit _)) | _, .cpu (.call (.wait _)) | _, .cpu (.call (.startMLFQ _ _))
  | _, .cpu (.call .stopMLFQ) | _, .cpu (.call .kalloc) | _, .cpu (.call (.kfree _))
  | _, .startMLFQ _ _ | _, .stopMLFQ => isTrue trivial

/-- The arguments of the call that set the flag last. -/
def startedWith (log : List Mark) : Option (Int × Int) :=
  log.findSome? fun
    | .started m n => some (m, n)
    | _ => none

def begins : Mark → Bool
  | .started _ _ => true
  | _ => false

/-- The calls that have returned 0 since the flag was last cleared. -/
def Machine.successes (s : Machine) : List Return := s.returned.filter fun r => r.result = 0

structure SameSession (k k' : Kernel) : Prop where
  flag : k'.mlfqFlag = k.mlfqFlag
  m : k'.m = k.m
  n : k'.n = k.n
  started : startedWith k'.log = startedWith k.log

theorem startedWith_append {marks log : List Mark}
    (own : ∀ mark ∈ marks, byBlock mark = true) :
    startedWith (marks ++ log) = startedWith log := by
  have none : marks.findSome? (fun
      | .started m n => some (m, n)
      | _ => none) = none := by
    rw [List.findSome?_eq_none_iff]
    intro mark hm
    have := own mark hm
    cases mark <;> simp_all [byBlock]
  simp [startedWith, List.findSome?_append, none]

theorem unswitched_session {k k' : Kernel} (h : Unswitched k k') : SameSession k k' := by
  obtain ⟨marks, own, log⟩ := h.log
  exact ⟨h.flag, h.m, h.n, by rw [log, startedWith_append own]⟩

theorem call_session {k : Kernel} {e : SchedulerRuns.Event}
    (other : ∀ choose, e ≠ .iterate choose) (noStart : ∀ m n, e ≠ .startMLFQ m n)
    (noStop : e ≠ .stopMLFQ) : SameSession k (kernelStep k e) := by
  have effect := kernelStep_effect k .entry other
  generalize kernelStep k e = k' at effect
  cases effect with
  | iterated => exact absurd rfl (other _)
  | returned => exact ⟨rfl, rfl, rfl, rfl⟩
  | quiet _ q =>
    refine ⟨q.flag, q.m, q.n, ?_⟩
    rcases q.log with same | ⟨i, same⟩ <;> rw [same]
    rfl
  | recycled => exact ⟨rfl, rfl, rfl, rfl⟩
  | started m n => exact absurd rfl (noStart m n)
  | stopped => exact absurd rfl noStop
  | lent => exact ⟨rfl, rfl, rfl, rfl⟩
  | repaid => exact ⟨rfl, rfl, rfl, rfl⟩

theorem cpu_session {c c' : OneCpuKernel.Machine} {e : OneCpuKernel.Event}
    (noStart : ∀ m n, e ≠ .call (.startMLFQ m n)) (noStop : e ≠ .call .stopMLFQ)
    (h : OneCpuKernel.step c e = .ok c') : SameSession c.kernel c'.kernel := by
  cases OneCpuKernel.step_cases h with
  | stays | ignored => exact ⟨rfl, rfl, rfl, rfl⟩
  | block unswitched => exact unswitched_session unswitched
  | switch => exact ⟨rfl, rfl, rfl, rfl⟩
  | interrupted => exact ⟨rfl, rfl, rfl, rfl⟩
  | @called call k i back =>
    apply call_session
    · cases call <;> simp [OneCpuKernel.Call.event]
    · cases call <;> simp_all [OneCpuKernel.Call.event]
    · cases call <;> simp_all [OneCpuKernel.Call.event]

/-- No call stands between setting the flag and its last statement. -/
def Whole (calls : Slot → Option Syscall) : Prop :=
  ∀ i c, calls i = some (.start c) → ¬ c.next.Published

def Progress (c : Start) (k : Kernel) (cleared : Level → Bool) : Prop :=
  match c.next with
  | .storeN => k.m = c.m
  | .clear l => k.m = c.m ∧ k.n = c.n ∧ ∀ l' < l, cleared l' = true
  | _ => True

inductive Phase (s : Machine) : Prop
  | idle (flag : s.cpu.kernel.mlfqFlag = false) (whole : Whole s.calls)
      (returned : s.returned = [])
  | starting (i : Slot) (c : Start) (back : OneCpuKernel.Caller)
      (here : s.cpu.control = .process i back) (call : s.calls i = some (.start c))
      (published : c.next.Published) (others : Whole (Function.update s.calls i none))
      (flag : s.cpu.kernel.mlfqFlag = true)
      (log : ∃ rest, s.cpu.kernel.log = .started c.m c.n :: rest)
      (progress : Progress c s.cpu.kernel s.cleared) (returned : s.returned = [])
  | running (flag : s.cpu.kernel.mlfqFlag = true) (whole : Whole s.calls)
      (started : startedWith s.cpu.kernel.log = some (s.cpu.kernel.m, s.cpu.kernel.n))
      (cleared : ∀ l, s.cleared l = true)
      (successes : s.successes = [⟨0, s.cpu.kernel.m, s.cpu.kernel.n⟩])

theorem Whole.update {calls : Slot → Option Syscall} {i : Slot} {call : Option Syscall}
    (others : Whole (Function.update calls i none))
    (own : ∀ c, call = some (.start c) → ¬ c.next.Published) :
    Whole (Function.update calls i call) := by
  intro j c h
  by_cases hj : j = i
  · subst hj
    exact own c (by simpa using h)
  · exact others j c (by simpa [hj] using h)

theorem Whole.others {calls : Slot → Option Syscall} (whole : Whole calls) (i : Slot) :
    Whole (Function.update calls i none) := by
  intro j c h
  by_cases hj : j = i
  · subst hj
    simp at h
  · exact whole j c (by simpa [hj] using h)

theorem Whole.of_update {calls : Slot → Option Syscall} {i : Slot}
    (others : Whole (Function.update calls i none)) (call : Option Syscall) :
    Whole (Function.update (Function.update calls i call) i none) := by
  rw [Function.update_idem]
  exact others

theorem boot_phase (pages : List Addr) : Phase (boot pages) := .idle rfl nofun rfl

/-- Entering a call changes nothing that a phase speaks of. -/
theorem enter_phase {s : Machine} {call : Syscall} (phase : Phase s)
    (entry : ∀ c, call = .start c → ¬ c.next.Published) : Phase (enter s call) := by
  unfold enter
  cases here : s.cpu.control.myproc with
  | none => exact phase
  | some i =>
    simp only
    split
    · rename_i free
      have own : ∀ c, some call = some (.start c) → ¬ c.next.Published :=
        fun c h => entry c (Option.some.inj h)
      cases phase with
      | idle flag whole returned => exact .idle flag ((whole.others i).update own) returned
      | starting j c back here' call' =>
        rw [here'] at here
        obtain rfl := Option.some.inj here
        rw [free] at call'
        cases call'
      | running flag whole started cleared successes =>
        exact .running flag ((whole.others i).update own) started cleared successes
    · exact phase

/-- The scheduler, interrupts and other calls keep the phase. -/
theorem cpu_phase {s : Machine} {e : OneCpuKernel.Event} {c : OneCpuKernel.Machine}
    (phase : Phase s) (allowed : permitted s e = true) (undivided : Undivided s (.cpu e))
    (h : OneCpuKernel.step s.cpu e = .ok c) : Phase { s with cpu := c } := by
  have noStart : ∀ m n, e ≠ .call (.startMLFQ m n) := by
    rintro m n rfl
    cases allowed
  have noStop : e ≠ .call .stopMLFQ := by
    rintro rfl
    cases allowed
  obtain ⟨hflag, hm, hn, hlog⟩ := cpu_session noStart noStop h
  cases phase with
  | idle flag whole returned => exact .idle (hflag.trans flag) whole returned
  | running flag whole started cleared successes =>
    refine .running (hflag.trans flag) whole ?_ cleared ?_
    · rw [hlog, started, hm, hn]
    · rw [hm, hn]
      exact successes
  | starting i d back here call published others flag log progress returned =>
    have current : s.current = some (.start d) := by
      simp [Machine.current, here, OneCpuKernel.Control.myproc, call]
    obtain ⟨⟨k, control⟩, calls, cleared, ret⟩ := s
    subst here
    cases e with
    | advance stale =>
      rw [← Except.ok.inj h]
      exact .starting i d back rfl call published others flag log progress returned
    | interrupt chan =>
      rw [← Except.ok.inj h]
      exact .starting i d back rfl call published others flag log progress returned
    | call e =>
      cases e with
      | yield => exact absurd published (undivided d (startCall_eq_some.mpr current))
      | _ => simp [permitted, current] at allowed

/-- The statements of a call that has set the flag. -/
theorem starting_phase {s : Machine} {i : Slot} {c : Start} {back : OneCpuKernel.Caller}
    (here : s.cpu.control = .process i back) (published : c.next.Published)
    (others : Whole (Function.update s.calls i none)) (flag : s.cpu.kernel.mlfqFlag = true)
    (log : ∃ rest, s.cpu.kernel.log = .started c.m c.n :: rest)
    (progress : Progress c s.cpu.kernel s.cleared) (returned : s.returned = []) :
    Phase (startStatement s i c) := by
  obtain ⟨m, n, next⟩ := c
  cases next with
  | test => cases published
  | publish => cases published
  | storeM =>
    exact .starting i ⟨m, n, .storeN⟩ back here (Function.update_self ..) trivial
      (others.of_update _)
      flag log rfl returned
  | storeN =>
    refine .starting i ⟨m, n, .clear 0⟩ back here (Function.update_self ..) trivial
      (others.of_update _)
      flag log ⟨progress, rfl, ?_⟩ returned
    intro l low
    exact absurd low (Nat.not_lt_zero _)
  | clear l =>
    obtain ⟨hm, hn, below⟩ := progress
    have cleared : ∀ l', l'.val ≤ l.val → Function.update s.cleared l true l' = true := by
      intro l' hl
      by_cases same : l' = l
      · simp [same]
      · have low : l' < l := lt_of_le_of_ne (Fin.le_def.mpr hl) same
        simpa [same] using below l' low
    simp only [startStatement]
    split
    · rename_i more
      refine .starting i ⟨m, n, .clear ⟨l.val + 1, more⟩⟩ back here (Function.update_self ..)
        trivial (others.of_update _) flag log ⟨hm, hn, ?_⟩ returned
      intro l' low
      exact cleared l' (by simpa [Fin.lt_def, Nat.lt_succ_iff] using low)
    · rename_i last
      refine .running flag others ?_ (fun l' => cleared l' (by omega)) ?_
      · obtain ⟨rest, log⟩ := log
        change startedWith s.cpu.kernel.log = some (s.cpu.kernel.m, s.cpu.kernel.n)
        rw [log, hm, hn]
        rfl
      · change (⟨0, m, n⟩ :: s.returned).filter (fun r => r.result = 0) =
          [⟨0, s.cpu.kernel.m, s.cpu.kernel.n⟩]
        rw [returned, hm, hn]
        rfl

theorem statement_phase {s : Machine} {i : Slot} {call : Syscall} (phase : Phase s)
    (here : s.cpu.control.myproc = some i) (own : s.calls i = some call)
    (undivided : Undivided s .statement) : Phase (statement s i call) := by
  have current : s.current = some call := by simp [Machine.current, here, own]
  cases phase with
  | starting j c back here' call' published others flag log progress returned =>
    rw [here'] at here
    obtain rfl := Option.some.inj here
    obtain rfl := Option.some.inj (own.symm.trans call')
    exact starting_phase here' published others flag log progress returned
  | idle flag whole returned =>
    have finished : Whole (Function.update s.calls i none) := whole.others i
    cases call with
    | start c =>
      have outside := whole i c own
      obtain ⟨m, n, next⟩ := c
      cases next with
      | test =>
        simp only [statement, startStatement, flag]
        exact .idle flag (finished.update (by simp [Statement.Published])) returned
      | publish =>
        obtain ⟨back, here⟩ := OneCpuKernel.Control.process_of_myproc here
        simp only [statement, startStatement, publish, flag]
        exact .starting i ⟨m, n, .storeM⟩ back here (Function.update_self ..) trivial
          (finished.of_update _) rfl ⟨_, rfl⟩ trivial returned
      | storeM | storeN | clear => exact absurd trivial outside
    | stopTest =>
      simp only [statement, flag]
      exact .idle flag finished returned
    | stopStore =>
      simp only [statement, unpublish, flag]
      exact .idle flag finished rfl
  | running flag whole started cleared successes =>
    have finished : Whole (Function.update s.calls i none) := whole.others i
    cases call with
    | start c =>
      have outside := whole i c own
      obtain ⟨m, n, next⟩ := c
      cases next with
      | test =>
        simp only [statement, startStatement, flag]
        exact .running flag finished started cleared successes
      | publish =>
        have clear := undivided _ (startCall_eq_some.mpr current) rfl
        rw [flag] at clear
        cases clear
      | storeM | storeN | clear => exact absurd trivial outside
    | stopTest =>
      simp only [statement, flag]
      exact .running flag (finished.update nofun) started cleared successes
    | stopStore =>
      simp only [statement, unpublish, flag]
      exact .idle rfl finished rfl

theorem step_phase {s t : Machine} {e : Event} (phase : Phase s) (undivided : Undivided s e)
    (h : step s e = .ok t) : Phase t := by
  cases e with
  | cpu e =>
    simp only [step] at h
    split at h
    · rename_i allowed
      obtain ⟨c, hc, h⟩ := bind_eq_ok.mp h
      rw [← pure_eq_ok.mp h]
      exact cpu_phase phase allowed undivided hc
    · rw [← Except.ok.inj h]
      exact phase
  | startMLFQ m n =>
    rw [← Except.ok.inj h]
    refine enter_phase phase ?_
    rintro c heq
    obtain rfl := Syscall.start.inj heq
    exact id
  | stopMLFQ =>
    rw [← Except.ok.inj h]
    exact enter_phase phase nofun
  | statement =>
    simp only [step] at h
    split at h
    · rw [← Except.ok.inj h]
      exact phase
    · rename_i i here
      split at h
      · rw [← Except.ok.inj h]
        exact phase
      · rename_i call own
        rw [← Except.ok.inj h]
        exact statement_phase phase here own undivided

/-- What an iteration relies on: the call that set the flag has stored its
arguments, they are in force, and every head was cleared after the flag was set. -/
structure InPlace (s : Machine) : Prop where
  stored : startedWith s.cpu.kernel.log = some (s.cpu.kernel.m, s.cpu.kernel.n)
  cleared : ∀ l, s.cleared l = true
  whole : Whole s.calls

/-- When no call is preempted after it has set the flag or overtaken before, an
iteration starts only with everything in place, no head is cleared after an
admission, and one call of a session returns 0, with its arguments in force. -/
theorem start_law (pages : List Addr) {es : List Event} {s : Machine}
    (undivided : Meets step Undivided (boot pages) es) (h : run step (boot pages) es = .ok s) :
    (∀ f, s.cpu.control = .loop f → s.cpu.kernel.mlfqFlag = true → InPlace s) ∧
    (∀ c l, s.startCall = some c → c.next = .clear l →
      ∀ j, .admitted j ∉ since begins s.cpu.kernel.log) ∧
    s.successes.length ≤ 1 ∧
    (s.returned ≠ [] → Whole s.calls →
      s.successes = [⟨0, s.cpu.kernel.m, s.cpu.kernel.n⟩]) := by
  have phase : Phase s :=
    run_invariant (fun _ _ _ phase undivided h => step_phase phase undivided h)
      (boot_phase pages) undivided h
  have outside : ∀ {c l}, Whole s.calls → s.startCall = some c → c.next ≠ .clear l := by
    intro c l whole current next
    obtain ⟨i, -, own⟩ := Option.bind_eq_some_iff.mp (startCall_eq_some.mp current)
    have := whole i c own
    rw [next] at this
    exact this trivial
  cases phase with
  | idle flag whole returned =>
    refine ⟨?_, fun c l current next => absurd next (outside whole current), ?_, ?_⟩
    · intro f _ set
      rw [flag] at set
      cases set
    · simp [Machine.successes, returned]
    · exact fun some => absurd returned some
  | starting i c back here call published others flag log progress returned =>
    refine ⟨?_, ?_, ?_, ?_⟩
    · intro f away
      rw [here] at away
      cases away
    · obtain ⟨rest, log⟩ := log
      intro c' l _ _ j
      simp [log, since, begins]
    · simp [Machine.successes, returned]
    · exact fun some => absurd returned some
  | running flag whole started cleared successes =>
    refine ⟨fun _ _ _ => ⟨started, cleared, whole⟩,
      fun c l current next => absurd next (outside whole current), ?_, fun _ _ => successes⟩
    simp [successes]

/-- The process on the CPU performs a whole call, or as much of it. -/
def callRun (m n : Int) (count : Nat) : List Event :=
  .startMLFQ m n :: List.replicate count .statement

/-- `init` makes a child, and they are on the CPU one after the other. -/
def forkRun : List Event :=
  [.cpu (.advance none), .cpu (.advance none), .cpu (.call (.fork true true))]

def preempt : Event := .cpu (.call .yield)

/-- The steps that the scheduler takes with no process on the CPU. -/
def advances (count : Nat) : List Event := List.replicate count (.cpu (.advance none))

theorem start_law_two_calls : ∃ s,
    run step (boot [0, 1, 2, 3]) (forkRun ++ callRun 2 100 14 ++ [preempt] ++ advances 1 ++
      callRun 3 50 1 ++ [preempt] ++ advances 64) = .ok s ∧
    (∀ f, s.cpu.control = .loop f → s.cpu.kernel.mlfqFlag = true → InPlace s) ∧
    (∀ c l, s.startCall = some c → c.next = .clear l →
      ∀ j, .admitted j ∉ since begins s.cpu.kernel.log) ∧
    s.successes.length ≤ 1 ∧
    (s.returned ≠ [] → Whole s.calls →
      s.successes = [⟨0, s.cpu.kernel.m, s.cpu.kernel.n⟩]) := by
  have ends : Yields (run step (boot [0, 1, 2, 3]) (forkRun ++ callRun 2 100 14 ++ [preempt] ++
      advances 1 ++ callRun 3 50 1 ++ [preempt] ++ advances 64))
      fun s => s.cpu.control = .loop .entry ∧ s.returned.length = 2 := by decide +kernel
  obtain ⟨s, hs, -⟩ := ends
  exact ⟨s, hs, start_law [0, 1, 2, 3] (by decide +kernel) hs⟩

/-- A call preempted right after it has set the flag lets an iteration start with
`m = 0`. Of two calls that both pass the test the second clears the heads
of a session that has admitted processes, and both return 0. -/
theorem preempted_calls :
    (Yields (run step (boot [0, 1, 2, 3])
        (forkRun ++ callRun 2 100 2 ++ [preempt] ++ advances 1 ++ [preempt] ++ advances 64))
      fun s => s.cpu.control = .loop .entry ∧ s.cpu.kernel.mlfqFlag = true ∧
        startedWith s.cpu.kernel.log = some (2, 100) ∧ s.cpu.kernel.m = 0) ∧
    (Yields (run step (boot [0, 1, 2, 3])
        (forkRun ++ callRun 2 100 1 ++ [preempt] ++ advances 1 ++ callRun 3 50 14 ++
          [preempt] ++ advances 69 ++ List.replicate 3 .statement))
      fun s => (s.startCall.map fun c => c.next) = some (.clear 0) ∧
        s.cpu.kernel.store.queue 0 = [0, 1] ∧
        .admitted 0 ∈ since begins s.cpu.kernel.log) ∧
    (Yields (run step (boot [0, 1, 2, 3])
        (forkRun ++ callRun 2 100 1 ++ [preempt] ++ advances 1 ++ callRun 3 50 14 ++
          [preempt] ++ advances 69 ++ List.replicate 13 .statement))
      fun s => s.successes = [⟨0, 2, 100⟩, ⟨0, 3, 50⟩] ∧ ∀ l, s.cpu.kernel.store.queue l = []) := by
  decide +kernel

end StartInterleaving
