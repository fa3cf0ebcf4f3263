import Xv6.FamilyTree

/-!
# What ps and getppid report

`sys_ps` and `sys_getppid` take no lock, so other processes run between their
statements. A call is stepped one statement at a time, over the machine of all
processes; `seen` holds the process tables since the call began. The window in
which a report goes wrong is the one in which `wait` frees the slot that the call
has looked at.
-/

namespace StatusReports

open ProcTable ProcessThreads ThreadMoves FamilyTree EventRuns Outcomes

/-- One element of the array `ps`; `state` is the index into `stateStr`. -/
structure Report where
  pid : Int
  ppid : Int
  state : ProcState
  deriving DecidableEq

/-- The next statement of the loop body in `sys_ps`, with what was written before. -/
inductive Place where
  /-- `if (proc[i].state != UNUSED)` -/
  | test
  | pid
  /-- `if (proc[i].parent)` -/
  | testParent (pid : Int)
  /-- `proc[i].parent->pid` -/
  | parent (pid : Int)
  | state (pid ppid : Int)
  deriving DecidableEq

inductive Call where
  | ps (i : Slot) (place : Place) (ps : List Report)
  | listed (ps : List Report)
  /-- `curproc->parent` -/
  | getppid
  | testParent (parentproc : Option Slot)
  | parentPid (parentproc : Slot)
  | answered (value : Int)
  deriving DecidableEq

inductive Fault where
  | panic (p : Panic)
  | nullParent
  deriving DecidableEq

structure Machine where
  base : ProcessThreads.Machine
  caller : Slot
  call : Call
  seen : List Table

inductive Event where
  /-- The caller executes the next statement of the call. -/
  | next
  | other (e : ProcessThreads.Event)

/-- The loop of `sys_ps` goes on to the next slot. -/
def nextSlot (i : Slot) (ps : List Report) : Call :=
  if h : i.val + 1 < nproc then .ps ⟨i.val + 1, h⟩ .test ps else .listed ps

def statement (t : Table) (caller : Slot) : Call → Except Fault Call
  | .ps i .test ps =>
    .ok (if (t.proc i).state ≠ .unused then .ps i .pid ps else nextSlot i ps)
  | .ps i .pid ps => .ok (.ps i (.testParent (t.proc i).pid) ps)
  | .ps i (.testParent pid) ps =>
    .ok (if (t.proc i).parent ≠ none then .ps i (.parent pid) ps else .ps i (.state pid 0) ps)
  | .ps i (.parent pid) ps =>
    match (t.proc i).parent with
    | some j => .ok (.ps i (.state pid (t.proc j).pid) ps)
    | none => .error .nullParent
  | .ps i (.state pid ppid) ps => .ok (nextSlot i (ps ++ [⟨pid, ppid, (t.proc i).state⟩]))
  | .getppid => .ok (.testParent (t.proc caller).parent)
  | .testParent none => .ok (.answered (-1))
  | .testParent (some j) => .ok (.parentPid j)
  | .parentPid j => .ok (.answered (t.proc j).pid)
  | .listed ps => .ok (.listed ps)
  | .answered value => .ok (.answered value)

/-- The process whose kernel code the event is. -/
def actor : ProcessThreads.Event → Option Slot
  | .usertrap i _ | .usertrapret i | .sleep i _ | .fork i _ _ | .adopt i | .launch i | .exit i _
  | .fileclose i | .finish i | .wait i _ | .fdalloc i _ _ | .close i _ => some i
  | .scheduler _ | .mlfq _ | .kerneltrap _ _ | .wakeup _ _ | .kill _ => none

/-- The caller is preempted by `kerneltrap`, and does nothing but its call. -/
def step (m : Machine) : Event → Except Fault Machine
  | .next =>
    if (m.base.proc m.caller).state = .running then
      (statement m.base.table m.caller m.call).map fun call => { m with call := call }
    else .ok m
  | .other e =>
    if actor e = some m.caller then .ok m
    else match ProcessThreads.step .project1c m.base e with
      | .ok s => .ok { m with base := s, seen := s.table :: m.seen }
      | .error p => .error (.panic p)

/-- A call as the process `caller` enters it. -/
def entered (s : ProcessThreads.Machine) (caller : Slot) (call : Call) : Machine :=
  ⟨s, caller, call, [s.table]⟩

/-- `sys_ps` and `sys_getppid` at their first statements. -/
def Entry (call : Call) : Prop := call = .ps 0 .test [] ∨ call = .getppid

/-- In a table seen during the call, the parent of `pid` had the pid `ppid`. -/
def WasParent (seen : List Table) (pid ppid : Int) : Prop :=
  ∃ t ∈ seen, ∃ i j, (t.proc i).state ≠ .unused ∧ (t.proc i).pid = pid ∧
    (t.proc i).parent = some j ∧ (t.proc j).state ≠ .unused ∧ (t.proc j).pid = ppid

/-- What a record of `ps` promises; a `ppid` of 0 stands for no parent. -/
def Truthful (seen : List Table) (pid ppid : Int) : Prop :=
  pid ≠ 0 ∧ (ppid ≠ 0 → WasParent seen pid ppid)

/-- The reports made so far, and the answer of `getppid`. -/
def Honest (m : Machine) : Prop :=
  match m.call with
  | .ps _ _ ps | .listed ps => ∀ r ∈ ps, Truthful m.seen r.pid r.ppid
  | .answered value => value = -1 ∨ WasParent m.seen (m.base.proc m.caller).pid value
  | _ => True

/-- The step dereferences no null parent and leaves the reports honest. -/
def Lawful (m : Machine) (e : Event) : Prop :=
  step m e ≠ .error .nullParent ∧ ∀ m', step m e = .ok m' → Honest m'

/-- The call has looked at slot `k`, and will read it again. -/
def Call.Holds (k : Slot) : Call → Prop
  | .ps i .pid _ | .ps i (.testParent _) _ | .ps i (.parent _) _ => i = k
  | .testParent parentproc => parentproc = some k
  | .parentPid j => j = k
  | _ => False

instance (k : Slot) : ∀ call : Call, Decidable (call.Holds k)
  | .ps _ .pid _ | .ps _ (.testParent _) _ | .ps _ (.parent _) _ =>
    inferInstanceAs (Decidable (_ = k))
  | .testParent _ => inferInstanceAs (Decidable (_ = some k))
  | .parentPid _ => inferInstanceAs (Decidable (_ = k))
  | .ps _ .test _ | .ps _ (.state _ _) _ | .listed _ | .getppid | .answered _ => isFalse not_false

/-- No `wait` frees a slot that the call holds. -/
def Undisturbed (m : Machine) (e : Event) : Prop :=
  match e with
  | .other (.wait i true) =>
    m.base.At i (· = .syscall) → ∀ k ∈ zombieChild m.base.table i, ¬ m.call.Holds k
  | _ => True

instance (m : Machine) : ∀ e, Decidable (Undisturbed m e)
  | .other (.wait i true) => inferInstanceAs (Decidable (m.base.At i (· = .syscall) →
      ∀ k ∈ zombieChild m.base.table i, ¬ m.call.Holds k))
  | .next | .other (.wait _ false) | .other (.scheduler _) | .other (.mlfq _)
  | .other (.usertrap ..) | .other (.kerneltrap ..) | .other (.usertrapret _)
  | .other (.sleep ..) | .other (.wakeup ..) | .other (.kill _) | .other (.fork ..)
  | .other (.adopt _) | .other (.launch _) | .other (.exit ..) | .other (.fileclose _)
  | .other (.finish _) | .other (.fdalloc ..) | .other (.close ..) => isTrue trivial

def Known (m : Machine) : Prop :=
  match m.call with
  | .ps _ .test ps => ∀ r ∈ ps, Truthful m.seen r.pid r.ppid
  | .ps i .pid ps =>
    (m.base.proc i).state ≠ .unused ∧ ∀ r ∈ ps, Truthful m.seen r.pid r.ppid
  | .ps i (.testParent pid) ps =>
    ((m.base.proc i).state ≠ .unused ∧ (m.base.proc i).pid = pid) ∧
      ∀ r ∈ ps, Truthful m.seen r.pid r.ppid
  | .ps i (.parent pid) ps =>
    ((m.base.proc i).state ≠ .unused ∧ (m.base.proc i).pid = pid ∧
      (m.base.proc i).parent ≠ none) ∧ ∀ r ∈ ps, Truthful m.seen r.pid r.ppid
  | .ps _ (.state pid ppid) ps =>
    Truthful m.seen pid ppid ∧ ∀ r ∈ ps, Truthful m.seen r.pid r.ppid
  | .listed ps => ∀ r ∈ ps, Truthful m.seen r.pid r.ppid
  | .getppid => True
  | .testParent none => True
  | .testParent (some j) | .parentPid j =>
    (m.base.proc j).state ≠ .unused ∧
      WasParent m.seen (m.base.proc m.caller).pid (m.base.proc j).pid
  | .answered value => value = -1 ∨ WasParent m.seen (m.base.proc m.caller).pid value

structure Inv (m : Machine) : Prop where
  family : Family m.base
  caller : Alive (m.base.cell m.caller)
  calling : m.base.thread m.caller = .syscall
  now : m.base.table ∈ m.seen
  known : Known m

theorem Inv.honest {m : Machine} (inv : Inv m) : Honest m := by
  have known := inv.known
  unfold Known at known
  unfold Honest
  split
  · rename_i i place ps h
    cases place <;> simp only [h] at known
    · exact known
    all_goals exact known.2
  · rename_i ps h
    simpa only [h] using known
  · rename_i value h
    simpa only [h] using known
  · trivial

theorem WasParent.mono {seen : List Table} {t : Table} {pid ppid : Int}
    (h : WasParent seen pid ppid) : WasParent (t :: seen) pid ppid := by
  obtain ⟨r, hr, rest⟩ := h
  exact ⟨r, List.mem_cons_of_mem t hr, rest⟩

theorem Truthful.mono {seen : List Table} {t : Table} {pid ppid : Int}
    (h : Truthful seen pid ppid) : Truthful (t :: seen) pid ppid :=
  ⟨h.1, fun reported => (h.2 reported).mono⟩

/-- The parent of a process, read while no other process moves. -/
theorem Inv.wasParent {m : Machine} (inv : Inv m) {i j : Slot}
    (child : (m.base.proc i).parent = some j) :
    WasParent m.seen (m.base.proc i).pid (m.base.proc j).pid := by
  obtain ⟨used, alive⟩ := inv.family.parents i j child
  exact ⟨m.base.table, inv.now, i, j, used, rfl, child, alive.1, rfl⟩

variable {m : Machine} {e : ProcessThreads.Event} {s : ProcessThreads.Machine}

/-- Only its own process moves a thread that is in a system call. -/
theorem Move.calling {v : Version} {s : ProcessThreads.Machine} {j : Slot} {c : Cell}
    (move : Move v s e j c) (alive : Alive (s.cell j)) (other : actor e ≠ some j) :
    c.thread = s.thread j := by
  cases move with
  | trapped call | returned call | forked call | adopted call | spawned call | exits call
  | closes call | finished call => simp [call, actor] at other
  | allocated call place slot => exact absurd (unusedSlot_state slot) alive.1
  | dispatched => cases v <;> rfl
  | _ => rfl

/-- A slot that the call holds is not freed. -/
theorem held_stays (undisturbed : Undisturbed m (.other e))
    (h : ProcessThreads.step .project1c m.base e = .ok s) {k : Slot} (holds : m.call.Holds k)
    (used : (m.base.proc k).state ≠ .unused) :
    (s.proc k).state ≠ .unused ∧ (s.proc k).pid = (m.base.proc k).pid := by
  have move := step_move h k
  have used' : (s.proc k).state ≠ .unused := by
    intro empty
    rcases Move.vacated move empty with before | ⟨i, call, place, slot, -⟩
    · exact used before
    · subst call
      exact undisturbed place k slot holds
  exact ⟨used', Move.same_pid move used used'⟩

theorem Inv.other (inv : Inv m) (undisturbed : Undisturbed m (.other e))
    (outside : actor e ≠ some m.caller)
    (h : ProcessThreads.step .project1c m.base e = .ok s) :
    Inv { m with base := s, seen := s.table :: m.seen } := by
  have move := step_move h m.caller
  have caller : Alive (s.cell m.caller) := by
    rcases Move.alive move (inv.family.dead _) inv.caller with alive | ⟨_, _, call, -⟩
    · exact alive
    · simp [call, actor] at outside
  have calling := (Move.calling move inv.caller outside).trans inv.calling
  have pid : (s.proc m.caller).pid = (m.base.proc m.caller).pid :=
    Move.same_pid move inv.caller.1 caller.1
  refine ⟨inv.family.step h, caller, calling, List.mem_cons_self, ?_⟩
  have truthful {ps : List Report} (h : ∀ r ∈ ps, Truthful m.seen r.pid r.ppid) :
      ∀ r ∈ ps, Truthful (s.table :: m.seen) r.pid r.ppid := fun r hr => (h r hr).mono
  have known := inv.known
  have held := @held_stays m e s undisturbed h
  unfold Known at known ⊢
  cases hc : m.call with
  | ps i place ps =>
    rw [hc] at held
    cases place with
    | test =>
      simp only [hc] at known ⊢
      exact truthful known
    | pid =>
      simp only [hc] at known ⊢
      exact ⟨(held rfl known.1).1, truthful known.2⟩
    | testParent pid =>
      simp only [hc] at known ⊢
      obtain ⟨used, same⟩ := held rfl known.1.1
      exact ⟨⟨used, same.trans known.1.2⟩, truthful known.2⟩
    | parent pid =>
      simp only [hc] at known ⊢
      obtain ⟨used, same⟩ := held rfl known.1.1
      refine ⟨⟨used, same.trans known.1.2.1, fun lost => ?_⟩, truthful known.2⟩
      rcases Move.parentless (step_move h i) lost with before | empty
      · exact known.1.2.2 before
      · exact used empty
    | state pid ppid =>
      simp only [hc] at known ⊢
      exact ⟨known.1.mono, truthful known.2⟩
  | listed ps =>
    simp only [hc] at known ⊢
    exact truthful known
  | getppid => trivial
  | testParent parentproc =>
    cases parentproc with
    | none => trivial
    | some j =>
      simp only [hc] at known ⊢
      rw [hc] at held
      obtain ⟨used, same⟩ := held rfl known.1
      rw [pid, same]
      exact ⟨used, known.2.mono⟩
  | parentPid j =>
    simp only [hc] at known ⊢
    rw [hc] at held
    obtain ⟨used, same⟩ := held rfl known.1
    rw [pid, same]
    exact ⟨used, known.2.mono⟩
  | answered value =>
    simp only [hc] at known ⊢
    rw [pid]
    exact known.imp_right WasParent.mono

theorem nextSlot_known {i : Slot} {ps : List Report}
    (h : ∀ r ∈ ps, Truthful m.seen r.pid r.ppid) : Known { m with call := nextSlot i ps } := by
  unfold nextSlot Known
  split <;> (split at * <;> simp_all)

/-- No statement dereferences a null parent, and each leads to what the next one
relies on. -/
theorem Inv.statement (inv : Inv m) :
    Yields (statement m.base.table m.caller m.call) fun call => Inv { m with call := call } := by
  have next {call : Call} (h : Known { m with call := call }) : Inv { m with call := call } :=
    ⟨inv.family, inv.caller, inv.calling, inv.now, h⟩
  have known := inv.known
  unfold Known at known
  cases hc : m.call with
  | ps i place ps =>
    cases place with
    | test =>
      simp only [hc] at known
      refine yields_ok (next ?_)
      split
      · rename_i used
        exact ⟨used, known⟩
      · exact nextSlot_known known
    | pid =>
      simp only [hc] at known
      exact yields_ok (next ⟨⟨known.1, rfl⟩, known.2⟩)
    | testParent pid =>
      simp only [hc] at known
      obtain ⟨⟨used, same⟩, known⟩ := known
      have positive := inv.family.pids i used
      refine yields_ok (next ?_)
      split
      · rename_i child
        exact ⟨⟨used, same, child⟩, known⟩
      · exact ⟨⟨by omega, fun h => absurd rfl h⟩, known⟩
    | parent pid =>
      simp only [hc] at known
      obtain ⟨⟨used, same, child⟩, known⟩ := known
      have positive := inv.family.pids i used
      obtain ⟨j, parent⟩ := Option.ne_none_iff_exists'.mp child
      have step : StatusReports.statement m.base.table m.caller (.ps i (.parent pid) ps) =
          .ok (.ps i (.state pid (m.base.proc j).pid) ps) := by
        simp only [StatusReports.statement, table_proc, parent]
      rw [step]
      refine yields_ok (next ⟨⟨by omega, fun _ => ?_⟩, known⟩)
      exact same ▸ inv.wasParent parent
    | state pid ppid =>
      simp only [hc] at known
      refine yields_ok (next (nextSlot_known fun r hr => ?_))
      rcases List.mem_append.mp hr with old | new
      · exact known.2 r old
      · rw [List.mem_singleton.mp new]
        exact known.1
  | listed ps =>
    simp only [hc] at known
    exact yields_ok (next known)
  | getppid =>
    refine yields_ok (next ?_)
    simp only [table_proc]
    cases parent : (m.base.proc m.caller).parent with
    | none => trivial
    | some j => exact ⟨(inv.family.parents _ j parent).2.1, inv.wasParent parent⟩
  | testParent parentproc =>
    cases parentproc with
    | none => exact yields_ok (next (Or.inl rfl))
    | some j =>
      simp only [hc] at known
      exact yields_ok (next known)
  | parentPid j =>
    simp only [hc] at known
    exact yields_ok (next (Or.inr known.2))
  | answered value =>
    simp only [hc] at known
    exact yields_ok (next known)

theorem Inv.step (inv : Inv m) {e : Event} (undisturbed : Undisturbed m e) :
    step m e ≠ .error .nullParent ∧ ∀ m', StatusReports.step m e = .ok m' → Inv m' := by
  cases e with
  | next =>
    simp only [StatusReports.step]
    split
    · obtain ⟨call, hcall, inv'⟩ := inv.statement
      simp only [hcall, Except.map]
      exact ⟨by simp, fun m' h => Except.ok.inj h ▸ inv'⟩
    · exact ⟨by simp, fun m' h => Except.ok.inj h ▸ inv⟩
  | other e =>
    simp only [StatusReports.step]
    split
    · exact ⟨by simp, fun m' h => Except.ok.inj h ▸ inv⟩
    · rename_i outside
      cases hs : ProcessThreads.step .project1c m.base e with
      | error p => exact ⟨by simp, by simp⟩
      | ok s => exact ⟨by simp, fun m' h => Except.ok.inj h ▸ inv.other undisturbed outside hs⟩

theorem entered_inv {s : ProcessThreads.Machine} {caller : Slot} {call : Call}
    (reachable : Reachable .project1c s) (place : s.At caller (· = .syscall))
    (entry : Entry call) : Inv (entered s caller call) := by
  refine ⟨reachable_family reachable, executing_alive place (by simp), place.2,
    List.mem_singleton_self _, ?_⟩
  rcases entry with rfl | rfl
  · intro r hr
    cases hr
  · trivial

/-- Whatever other processes do between the statements of the call, its reports are
true and no null parent is dereferenced, as long as no `wait` frees a slot that the
call has looked at and will read again. -/
theorem reports_honest (s : ProcessThreads.Machine) (caller : Slot) (call : Call)
    (reachable : Reachable .project1c s) (place : s.At caller (· = .syscall))
    (entry : Entry call) (es : List Event)
    (undisturbed : Meets step Undisturbed (entered s caller call) es) :
    Meets step Lawful (entered s caller call) es := by
  refine undisturbed.imp (I := Inv) ?_ ?_ (entered_inv reachable place entry)
  · exact fun m e m' inv here h => (inv.step here).2 m' h
  · exact fun m e inv here =>
      ⟨(inv.step here).1, fun m' h => ((inv.step here).2 m' h).honest⟩

/-- The events of a dispatched process from user mode into its next system call. -/
def calls (i : Slot) : List ProcessThreads.Event := [.usertrapret i, .usertrap i .ecall]

def forks (i : Slot) : List ProcessThreads.Event := [.fork i true true, .adopt i, .launch i]

def exits (i : Slot) : List ProcessThreads.Event :=
  .exit i 0 :: List.replicate 16 (.fileclose i) ++ [.finish i]

/-- Two children of the first process: one has exited, the other has just entered
a system call. -/
def siblings : List ProcessThreads.Event :=
  .scheduler 0 :: calls 0 ++ forks 0 ++ calls 0 ++ forks 0 ++ calls 0 ++
    [.kerneltrap 0 true, .scheduler 1] ++ calls 1 ++ [.kerneltrap 1 true, .scheduler 2] ++
    calls 2 ++ exits 2 ++ [.scheduler 1]

/-- The caller is preempted, and the first process waits for its child. -/
def reaped (caller : Slot) : List Event :=
  [.other (.kerneltrap caller true), .other (.scheduler 0), .other (.wait 0 true),
    .other (.kerneltrap 0 true), .other (.scheduler caller)]

/-- A child and a grandchild of the first process; the grandchild is in a system call. -/
def generations : List ProcessThreads.Event :=
  .scheduler 0 :: calls 0 ++ forks 0 ++ [.kerneltrap 0 true, .scheduler 1] ++ calls 1 ++
    forks 1 ++ calls 1 ++ [.kerneltrap 1 true, .scheduler 2] ++ calls 2

/-- The parent exits while its child is preempted, and is waited for. -/
def orphaned : List Event :=
  [.other (.kerneltrap 2 true), .other (.scheduler 1)] ++ (exits 1).map .other ++
    [.other (.scheduler 0), .other (.wait 0 true), .other (.kerneltrap 0 true),
      .other (.scheduler 2)]

/-- The third slot is listed up to its parent, with the freeing of a slot by a `wait`
that the call does not rely on in between. -/
theorem reports_honest_siblings :
    ∃ s, run (ProcessThreads.step .project1c) boot siblings = .ok s ∧
      Meets step Lawful (entered s 1 (.ps 0 .test []))
        (List.replicate 4 .next ++ reaped 1 ++ List.replicate 6 .next) := by
  have reached : Yields (run (ProcessThreads.step .project1c) boot siblings) fun s =>
      s.At 1 (· = .syscall) ∧ Meets step Undisturbed (entered s 1 (.ps 0 .test []))
        (List.replicate 4 .next ++ reaped 1 ++ List.replicate 6 .next) := by
    decide +kernel
  obtain ⟨s, hr, place, undisturbed⟩ := reached
  exact ⟨s, hr, reports_honest s 1 _ ⟨siblings, hr⟩ place (Or.inl rfl) _ undisturbed⟩

/-- One statement later for each: `ps` dereferences a null parent, or lists the pid 0,
and `getppid` answers 0, which is the pid of no process. -/
theorem reports_of_freed_slots :
    (Yields (run (ProcessThreads.step .project1c) boot siblings) fun s =>
      run step (entered s 1 (.ps 0 .test []))
        (List.replicate 12 .next ++ reaped 1 ++ [.next]) = .error .nullParent) ∧
    (Yields (run (ProcessThreads.step .project1c) boot siblings) fun s =>
      Yields (run step (entered s 1 (.ps 0 .test []))
        (List.replicate 10 .next ++ reaped 1 ++ List.replicate 3 .next)) fun m =>
          m.call = .ps 3 .test [⟨1, 0, .runnable⟩, ⟨2, 1, .running⟩, ⟨0, 0, .unused⟩]) ∧
    (Yields (run (ProcessThreads.step .project1c) boot generations) fun s =>
      Yields (run step (entered s 2 .getppid) ([.next] ++ orphaned ++ [.next, .next]))
        fun m => m.call = .answered 0) := by
  decide +kernel

end StatusReports
