import Xv6.ThreadMoves

/-!
# The family tree of the processes

What holds of pids, parents and half-made children in every reachable state of
either project, and under every scheduler: a parent is always a process that can
still run, and a slot that `fork` is filling belongs to that `fork` alone.
-/

namespace FamilyTree

open ProcTable ProcessThreads ThreadMoves EventRuns

/-- `fork` is at work on slot `np`. -/
def Forks (t : Thread) (np : Slot) : Prop := t = .forked np ∨ t = .adopted np

/-- The process can still run. -/
def Alive (c : Cell) : Prop := c.proc.state ≠ .unused ∧ c.thread ≠ .gone

structure Family (s : Machine) : Prop where
  nextpid : 0 < s.nextpid
  pids : ∀ j, (s.proc j).state ≠ .unused → 0 < (s.proc j).pid
  dead : ∀ j, (s.proc j).state = .unused ∨ (s.proc j).state = .zombie → s.thread j = .gone
  parents : ∀ j k, (s.proc j).parent = some k →
    (s.proc j).state ≠ .unused ∧ Alive (s.cell k)
  forked : ∀ i np, s.thread i = .forked np →
    (s.proc np).state ≠ .unused ∧ (s.proc np).parent = none
  adopted : ∀ i np, s.thread i = .adopted np →
    (s.proc np).state ≠ .unused ∧ (s.proc np).parent = some i
  apart : ∀ i np, Forks (s.thread i) np → np ≠ i
  unique : ∀ i i' np, Forks (s.thread i) np → Forks (s.thread i') np → i = i'
  first : Alive (s.cell initproc) ∧ ∀ status fd, s.thread initproc ≠ .exiting status fd

variable {v : Version} {s t : Machine} {e : Event} {j : Slot} {c : Cell}

theorem Move.vacated (m : Move v s e j c) (h : c.proc.state = .unused) :
    (s.proc j).state = .unused ∨
      ∃ i, e = .wait i true ∧ s.At i (· = .syscall) ∧ zombieChild s.table i = some j ∧
        c = (s.cell j).free := by
  cases m with
  | freed call place slot => exact Or.inr ⟨_, call, place, slot, rfl⟩
  | refused call slot freed => exact Or.inl (unusedSlot_state slot)
  | passive parents states | killed call hit states =>
    rcases states with same | ⟨-, awake⟩
    · exact Or.inl (same ▸ h)
    · rw [setProc_proc, awake] at h
      cases h
  | trapped call place trap =>
    cases trap with
    | preempted => cases h
    | _ => exact Or.inl h
  | closes =>
    rw [fileclose_proc] at h
    exact Or.inl h
  | dispatched => cases v <;> cases h
  | stays | returned | forked | adopted | parented | spawned | exits | files => exact Or.inl h
  | _ => cases h

theorem Move.dead (m : Move v s e j c)
    (before : (s.proc j).state = .unused ∨ (s.proc j).state = .zombie → s.thread j = .gone)
    (h : c.proc.state = .unused ∨ c.proc.state = .zombie) : c.thread = .gone := by
  cases m with
  | passive parents states | killed call hit states =>
    rcases states with same | ⟨-, awake⟩
    · exact before (same ▸ h)
    · simp [awake] at h
  | trapped call place trap =>
    have running : (s.cell j).proc.state = .running := place.1
    cases trap <;> simp [running] at h
  | dispatched => cases v <;> simp [dispatched, swtchTo] at h
  | returned call place | forked call place | adopted call place | spawned call place
  | exits call place | closes call place | files place =>
    have running : (s.cell j).proc.state = .running := place.1
    simp [running] at h
  | refused call slot => exact before (Or.inl (unusedSlot_state slot))
  | freed call place slot => exact before (Or.inr (zombieChild_state slot).2)
  | stays | parented => exact before h
  | finished => rfl
  | allocated => simp [child] at h
  | _ => simp [kerneltrap, ProcessThreads.yield, swtchTo] at h

/-- A process stays alive until its own `exit` is finished. -/
theorem Move.alive (m : Move v s e j c)
    (dead : (s.proc j).state = .unused ∨ (s.proc j).state = .zombie → s.thread j = .gone)
    (h : Alive (s.cell j)) :
    Alive c ∨ ∃ status fd, e = .finish j ∧ s.At j (· = .exiting status fd) ∧ nofile ≤ fd ∧
      (c.proc.parent = some j → j = initproc) := by
  by_cases empty : c.proc.state = .unused
  · rcases Move.vacated m empty with before | ⟨i, -, -, slot, -⟩
    · exact absurd before h.1
    · exact absurd (dead (Or.inr (zombieChild_state slot).2)) h.2
  · cases m with
    | @finished status fd parent call place closed parents =>
      refine Or.inr ⟨status, fd, call, place, closed, fun own => ?_⟩
      have own' : parent = some j := own
      rw [parents] at own'
      split at own'
      · exact (Option.some.inj own').symm
      · rename_i other
        exact absurd own' other
    | trapped call place trap =>
      have user : (s.cell j).thread = .user := place.2
      refine Or.inl ⟨empty, ?_⟩
      cases trap <;> simp [user]
    | closes call place =>
      obtain ⟨fd', after⟩ := fileclose_thread place.2
      exact Or.inl ⟨empty, by simp [after]⟩
    | returned call place threads =>
      refine Or.inl ⟨empty, ?_⟩
      rcases threads with rfl | ⟨-, rfl⟩ <;> simp
    | allocated call place slot => exact absurd (unusedSlot_state slot) h.1
    | forked | adopted | spawned | exits => exact Or.inl ⟨empty, by simp⟩
    | _ => exact Or.inl ⟨empty, h.2⟩

theorem Move.parent (m : Move v s e j c) {k : Slot} (h : c.proc.parent = some k) :
    (s.proc j).parent = some k ∨
      (∃ i status fd, (s.proc j).parent = some i ∧ s.At i (· = .exiting status fd) ∧
        k = initproc) ∨
      e = .adopt k ∧ s.At k (· = .forked j) := by
  cases m with
  | @passive parent state parents states =>
    have h' : parent = some k := h
    rcases parents with same | ⟨i, status, fd, -, place, before, after⟩
    · exact Or.inl (same.symm.trans h')
    · exact Or.inr (Or.inl ⟨i, status, fd, before, place,
        (Option.some.inj (after.symm.trans h')).symm⟩)
  | @finished status fd parent call place closed parents =>
    have h' : parent = some k := h
    rw [parents] at h'
    split at h'
    · rename_i own
      exact Or.inr (Or.inl ⟨j, status, fd, own, place, (Option.some.inj h').symm⟩)
    · exact Or.inl h'
  | @parented i call place other =>
    obtain rfl : i = k := Option.some.inj h
    exact Or.inr (Or.inr ⟨call, place⟩)
  | trapped call place trap => cases trap <;> exact Or.inl h
  | closes =>
    rw [fileclose_proc] at h
    exact Or.inl h
  | dispatched => cases v <;> exact Or.inl h
  | refused call slot freed =>
    obtain ⟨q, rfl⟩ := freed
    cases h
  | freed => cases h
  | _ => exact Or.inl h

/-- A parent is lost only with the slot. -/
theorem Move.parentless (m : Move v s e j c) (h : c.proc.parent = none) :
    (s.proc j).parent = none ∨ c.proc.state = .unused := by
  cases m with
  | @passive parent state parents states =>
    have h' : parent = none := h
    rcases parents with same | ⟨i, status, fd, -, -, before, after⟩
    · exact Or.inl (same.symm.trans h')
    · rw [after] at h'
      cases h'
  | @finished status fd parent call place closed parents =>
    have h' : parent = none := h
    rw [parents] at h'
    split at h'
    · cases h'
    · exact Or.inl h'
  | parented => cases h
  | trapped call place trap => cases trap <;> exact Or.inl h
  | closes =>
    rw [fileclose_proc] at h
    exact Or.inl h
  | dispatched => cases v <;> exact Or.inl h
  | refused call slot freed =>
    obtain ⟨q, rfl⟩ := freed
    exact Or.inr rfl
  | freed => exact Or.inr rfl
  | _ => exact Or.inl h

theorem Move.forks (m : Move v s e j c) {np : Slot} (h : Forks c.thread np) :
    (c.thread = s.thread j ∧ Forks (s.thread j) np) ∨
      (e = .fork j true true ∧ s.At j (· = .syscall) ∧ unusedSlot s.table = some np ∧
        c.thread = .forked np) ∨
      (e = .adopt j ∧ s.At j (· = .forked np) ∧ c.thread = .adopted np) := by
  cases m with
  | @forked np' call place slot =>
    rcases h with same | other
    · obtain rfl : np' = np := by simpa using same
      exact Or.inr (Or.inl ⟨call, place, slot, rfl⟩)
    · simp at other
  | @adopted np' call place =>
    rcases h with other | same
    · simp at other
    · obtain rfl : np' = np := by simpa using same
      exact Or.inr (Or.inr ⟨call, place, rfl⟩)
  | trapped call place trap =>
    have user : (s.cell j).thread = .user := place.2
    cases trap <;> simp [Forks, user] at h
  | returned call place threads => rcases threads with rfl | ⟨-, rfl⟩ <;> simp [Forks] at h
  | closes call place =>
    obtain ⟨fd', after⟩ := fileclose_thread place.2
    simp [Forks, after] at h
  | allocated | spawned | exits | finished => simp [Forks, child] at h
  | _ => exact Or.inl ⟨rfl, h⟩

theorem Move.exiting (m : Move v s e j c) {status : Int} {fd : Nat}
    (h : c.thread = .exiting status fd) :
    j ≠ initproc ∨ ∃ status fd, s.thread j = .exiting status fd := by
  cases m with
  | trapped call place trap =>
    cases trap with
    | killedCall other | unexpected other | killed device other => exact Or.inl other
    | call => simp at h
    | preempted | device => exact Or.inr ⟨status, fd, h⟩
  | returned call place threads =>
    rcases threads with rfl | ⟨other, rfl⟩
    · simp at h
    · exact Or.inl other
  | exits call place other => exact Or.inl other
  | closes call place => exact Or.inr ⟨_, _, place.2⟩
  | forked | adopted | spawned | finished | allocated => simp [child] at h
  | _ => exact Or.inr ⟨status, fd, h⟩

theorem Move.pid (m : Move v s e j c) (positive : 0 < s.nextpid)
    (before : (s.proc j).state ≠ .unused → 0 < (s.proc j).pid)
    (launched : ∀ i, s.At i (· = .adopted j) → (s.proc j).state ≠ .unused)
    (h : c.proc.state ≠ .unused) : 0 < c.proc.pid := by
  cases m with
  | passive parents states | killed call hit states =>
    rcases states with same | ⟨slept, -⟩
    · exact before (same ▸ h)
    · exact before (by simp [slept])
  | launched call place => exact before (launched _ place)
  | allocated => exact positive
  | trapped call place trap =>
    have used : (s.proc j).state ≠ .unused := by simp [place.1]
    cases trap <;> exact before used
  | closes call place =>
    rw [fileclose_proc]
    exact before (by simp [place.1])
  | dispatched call runnable => cases v <;> exact before (by simp [runnable])
  | resumed call version off used => exact before used
  | preempted call place | slept call place | finished call place =>
    exact before (by simp [place.1])
  | refused call slot freed =>
    obtain ⟨q, rfl⟩ := freed
    exact absurd rfl h
  | freed => exact absurd rfl h
  | _ => exact before h

/-- A process keeps its pid as long as it has its slot. -/
theorem Move.same_pid (m : Move v s e j c) (before : (s.proc j).state ≠ .unused)
    (after : c.proc.state ≠ .unused) : c.proc.pid = (s.proc j).pid := by
  cases m with
  | allocated call place slot => exact absurd (unusedSlot_state slot) before
  | refused call slot => exact absurd (unusedSlot_state slot) before
  | freed => exact absurd rfl after
  | trapped call place trap => cases trap <;> rfl
  | closes => exact congrArg Proc.pid (fileclose_proc _ _ _)
  | dispatched => cases v <;> rfl
  | _ => rfl

theorem fork_nextpid (s : Machine) (i : Slot) (memory copied : Bool) :
    s.nextpid ≤ (ProcessThreads.fork s i memory copied).nextpid := by
  unfold ProcessThreads.fork allocproc
  cases unusedSlot s.table with
  | none => exact le_rfl
  | some np =>
    have later : s.nextpid ≤ s.nextpid + 1 := by omega
    cases memory with
    | false => exact later
    | true => cases copied <;> exact later

theorem kill_nextpid (t : Table) (pid : Int) : (kill t pid).2.nextpid = t.nextpid := by
  rcases kill_cases t pid with ⟨failed, -⟩ | ⟨i, -, found⟩
  · rw [failed]
  · rw [found]
    rfl

theorem exit_nextpid (t : Table) (i : Slot) (status : Int) :
    (ProcTable.exit t i status).nextpid = t.nextpid := by
  simp only [ProcTable.exit, Table.set, wakeup, reparent]
  split <;> rfl

theorem wait_nextpid (s : Machine) (i : Slot) (delivered : Bool) :
    (ProcessThreads.wait s i delivered).nextpid = s.nextpid := by
  unfold ProcessThreads.wait ProcTable.wait
  cases zombieChild s.table i with
  | some j => cases delivered <;> rfl
  | none =>
    simp only [setTable_nextpid]
    split <;> rfl

theorem step_nextpid (h : step v s e = .ok t) : s.nextpid ≤ t.nextpid := by
  cases e with
  | fork i memory copied =>
    simp only [step] at h
    split at h <;> rw [← Except.ok.inj h]
    exact fork_nextpid s i memory copied
  | usertrap | usertrapret | exit =>
    simp only [step] at h
    split at h
    · obtain ⟨c, -, rfl⟩ := put_ok h
      exact le_rfl
    · rw [← Except.ok.inj h]
  | kill pid =>
    rw [← Except.ok.inj h]
    exact (kill_nextpid s.table pid).ge
  | finish i =>
    simp only [step] at h
    split at h
    · rename_i status fd thread
      split at h <;> rw [← Except.ok.inj h]
      exact (exit_nextpid s.table i status).ge
    · rw [← Except.ok.inj h]
  | wait i delivered =>
    simp only [step] at h
    split at h <;> rw [← Except.ok.inj h]
    exact (wait_nextpid s i delivered).ge
  | wakeup self chan => rw [← Except.ok.inj h]; exact le_rfl
  | adopt i | launch i | fileclose i =>
    simp only [step] at h
    split at h
    · split at h <;> rw [← Except.ok.inj h]
      all_goals exact le_rfl
    · rw [← Except.ok.inj h]
  | mlfq i =>
    simp only [step] at h
    split at h
    · rw [← Except.ok.inj h]
    · split at h
      · cases h
      · split at h
        · cases h
        · rw [← Except.ok.inj h]
          exact le_rfl
  | _ =>
    simp only [step] at h
    split at h
    all_goals
      obtain rfl := Except.ok.inj h
      exact le_rfl

/-- The fork at work on a slot is the only one, and began on a free slot. -/
theorem step_forks (h : step v s e = .ok t) {i np : Slot}
    (forks : Forks (t.thread i) np) :
    Forks (s.thread i) np ∨ e = .fork i true true ∧ s.At i (· = .syscall) ∧
      unusedSlot s.table = some np := by
  rcases Move.forks (step_move h i) forks with ⟨-, old⟩ | ⟨call, place, slot, -⟩ | ⟨-, place, -⟩
  · exact Or.inl old
  · exact Or.inr ⟨call, place, slot⟩
  · exact Or.inl (Or.inl place.2)

theorem Family.orphan (f : Family s) (empty : (s.proc j).state = .unused) :
    (s.proc j).parent = none := by
  cases child : (s.proc j).parent with
  | none => rfl
  | some k => exact absurd empty (f.parents j k child).1

theorem executing_alive {P : Thread → Prop} (place : s.At j P)
    (alive : ¬ P .gone) : Alive (s.cell j) := by
  refine ⟨by simp [show (s.cell j).proc.state = .running from place.1], fun gone => ?_⟩
  exact alive (gone ▸ place.2)

/-- A slot in use that still has a parent was not freed. -/
theorem stays_used (h : step v s e = .ok t)
    (used : (s.proc j).state ≠ .unused) (child : (t.proc j).parent ≠ none) :
    (t.proc j).state ≠ .unused := by
  intro empty
  rcases Move.vacated (step_move h j) empty with before | ⟨i, -, -, -, free⟩
  · exact used before
  · exact child (by simp [Machine.proc, free, Cell.free, freeproc])

theorem Family.used (f : Family s) {i np : Slot} (h : Forks (s.thread i) np) :
    (s.proc np).state ≠ .unused :=
  h.elim (fun h => (f.forked i np h).1) fun h => (f.adopted i np h).1

/-- The first slot is taken and the others are not. -/
theorem boot_slots :
    unusedSlot { proc := fun _ => .boot, nextpid := 1 } = some initproc ∧
      (boot.proc initproc).pid = 1 ∧
      ∀ j, (boot.proc j).state = (if j = initproc then .runnable else .unused) ∧
        (boot.proc j).parent = none := by
  decide +kernel

theorem boot_state (j : Slot) : (boot.proc j).state = if j = initproc then .runnable else .unused :=
  (boot_slots.2.2 j).1

theorem boot_unused {j : Slot} (other : j ≠ initproc) : boot.proc j = .boot := by
  simp [boot, Machine.proc, userinit, allocproc, boot_slots.1, other]

theorem boot_parent (j : Slot) : (boot.proc j).parent = none := (boot_slots.2.2 j).2

theorem boot_thread (j : Slot) : boot.thread j = if j = initproc then .forkret else .gone := rfl

theorem boot_forks (i np : Slot) : ¬ Forks (boot.thread i) np := by
  intro h
  rw [boot_thread] at h
  split at h <;> simp [Forks] at h

theorem boot_family : Family boot := by
  have pid := boot_slots.2.1
  constructor
  case nextpid => decide
  case pids =>
    intro j used
    obtain rfl : j = initproc := by
      by_contra other
      simp [boot_state, other] at used
    simp [pid]
  case dead =>
    intro j idle
    rw [boot_state] at idle
    rw [boot_thread]
    split at idle
    · simp at idle
    · rename_i other
      rw [if_neg other]
  case parents =>
    intro j k child
    simp [boot_parent] at child
  case forked => exact fun i np thread => absurd (Or.inl thread) (boot_forks i np)
  case adopted => exact fun i np thread => absurd (Or.inr thread) (boot_forks i np)
  case apart => exact fun i np forks => absurd forks (boot_forks i np)
  case unique => exact fun i _ np forks => absurd forks (boot_forks i np)
  case first =>
    refine ⟨⟨?_, ?_⟩, fun status fd thread => ?_⟩
    · rw [show (boot.cell initproc).proc.state = _ from boot_state initproc]
      simp
    · rw [show (boot.cell initproc).thread = _ from boot_thread initproc]
      simp
    · simp [boot_thread] at thread

theorem Family.step_first (f : Family s) (h : step v s e = .ok t) : Alive (t.cell initproc) := by
  rcases Move.alive (step_move h initproc) (f.dead _) f.first.1 with
    alive | ⟨status, fd, -, place, -⟩
  · exact alive
  · exact absurd place.2 (f.first.2 status fd)

/-- A parent exits only after its children have gone to `initproc`. -/
theorem Family.step_parents (f : Family s) (h : step v s e = .ok t) {k : Slot}
    (child : (t.proc j).parent = some k) : (t.proc j).state ≠ .unused ∧ Alive (t.cell k) := by
  have kept (used : (s.proc j).state ≠ .unused) : (t.proc j).state ≠ .unused :=
    stays_used h used (by simp [child])
  rcases Move.parent (step_move h j) child with
    same | ⟨i, status, fd, orphan, -, rfl⟩ | ⟨call, place⟩
  · refine ⟨kept (f.parents j k same).1, ?_⟩
    rcases Move.alive (step_move h k) (f.dead k) (f.parents j k same).2 with alive |
      ⟨status, fd, rfl, place, closed, own⟩
    · exact alive
    · have other : k ≠ initproc := by
        rintro rfl
        exact f.first.2 status fd place.2
      by_cases apart : j = k
      · subst apart
        exact absurd (own child) other
      · exact absurd child (finish_orphans place closed other h j apart)
  · exact ⟨kept (f.parents j i orphan).1, f.step_first h⟩
  · refine ⟨kept (f.forked k j place.2).1, ?_⟩
    have alive : Alive (s.cell k) := executing_alive place (by simp)
    rcases Move.alive (step_move h k) (f.dead k) alive with alive | ⟨status, fd, other, -⟩
    · exact alive
    · cases call.symm.trans other

/-- While `fork` has not set the parent, nobody sets it or frees the slot. -/
theorem Family.keeps_orphan (f : Family s) (h : step v s e = .ok t) {i np : Slot}
    (before : s.thread i = .forked np) (after : t.thread i = .forked np) :
    (t.proc np).state ≠ .unused ∧ (t.proc np).parent = none := by
  obtain ⟨used, orphan⟩ := f.forked i np before
  constructor
  · intro empty
    rcases Move.vacated (step_move h np) empty with before | ⟨i, -, -, slot, -⟩
    · exact used before
    · simpa [orphan] using (zombieChild_state slot).1
  · cases child : (t.proc np).parent with
    | none => rfl
    | some k =>
      rcases Move.parent (step_move h np) child with
        same | ⟨i, status, fd, same, -⟩ | ⟨rfl, place⟩
      · simp [orphan] at same
      · simp [orphan] at same
      · obtain rfl := f.unique k i np (Or.inl place.2) (Or.inl before)
        have next := (adopt_child place (f.apart k np (Or.inl before)) h).1
        simp [after] at next

theorem Family.step_forked (f : Family s) (h : step v s e = .ok t) {i np : Slot}
    (thread : t.thread i = .forked np) :
    (t.proc np).state ≠ .unused ∧ (t.proc np).parent = none := by
  rcases Move.forks (step_move h i) (Or.inl thread) with
    ⟨same, -⟩ | ⟨rfl, place, slot, -⟩ | ⟨-, -, now⟩
  · exact f.keeps_orphan h (same.symm.trans thread) thread
  · have made := fork_child place slot h
    have orphan := f.orphan (unusedSlot_state slot)
    constructor
    · simp [Machine.proc, made, child]
    · simpa [Machine.proc, made, child] using orphan
  · exact absurd (thread.symm.trans now) (by simp)

/-- A child stays with its parent as long as that is in `fork`. -/
theorem Family.keeps_child (f : Family s) (h : step v s e = .ok t) {i np : Slot}
    (before : s.thread i = .adopted np) :
    (t.proc np).state ≠ .unused ∧ (t.proc np).parent = some i := by
  obtain ⟨used, parent⟩ := f.adopted i np before
  have used' : (t.proc np).state ≠ .unused := by
    intro empty
    rcases Move.vacated (step_move h np) empty with before | ⟨k, -, place, slot, -⟩
    · exact used before
    · obtain rfl : i = k := Option.some.inj (parent.symm.trans (zombieChild_state slot).1)
      exact absurd (before.symm.trans place.2) (by simp)
  refine ⟨used', ?_⟩
  cases child : (t.proc np).parent with
  | none =>
    rcases Move.parentless (step_move h np) child with lost | empty
    · simp [parent] at lost
    · exact absurd empty used'
  | some k =>
    rcases Move.parent (step_move h np) child with
      same | ⟨k', status, fd, same, place, -⟩ | ⟨-, place⟩
    · exact same.symm.trans parent
    · obtain rfl : i = k' := Option.some.inj (parent.symm.trans same)
      exact absurd (before.symm.trans place.2) (by simp)
    · have orphan := (f.forked k np place.2).2
      simp [parent] at orphan

theorem Family.step_adopted (f : Family s) (h : step v s e = .ok t) {i np : Slot}
    (thread : t.thread i = .adopted np) :
    (t.proc np).state ≠ .unused ∧ (t.proc np).parent = some i := by
  rcases Move.forks (step_move h i) (Or.inr thread) with
    ⟨same, -⟩ | ⟨-, -, -, now⟩ | ⟨rfl, place, -⟩
  · exact f.keeps_child h (same.symm.trans thread)
  · exact absurd (thread.symm.trans now) (by simp)
  · obtain ⟨-, made⟩ := adopt_child place (f.apart i np (Or.inl place.2)) h
    have used := (f.forked i np place.2).1
    exact ⟨by simpa [Machine.proc, made] using used, by simp [Machine.proc, made]⟩

theorem Family.step_unique (f : Family s) (h : step v s e = .ok t) {i i' np : Slot}
    (forks : Forks (t.thread i) np) (forks' : Forks (t.thread i') np) : i = i' := by
  rcases step_forks h forks with old | ⟨call, place, slot⟩
  · rcases step_forks h forks' with old' | ⟨call', place', slot'⟩
    · exact f.unique i i' np old old'
    · exact absurd (unusedSlot_state slot') (f.used old)
  · rcases step_forks h forks' with old' | ⟨call', place', slot'⟩
    · exact absurd (unusedSlot_state slot) (f.used old')
    · simpa using call.symm.trans call'

theorem Family.step (f : Family s) (h : step v s e = .ok t) : Family t := by
  have move := step_move h
  constructor
  case nextpid => exact f.nextpid.trans_le (step_nextpid h)
  case pids =>
    intro j used
    refine Move.pid (move j) f.nextpid (f.pids j) (fun i place => ?_) used
    exact f.used (Or.inr place.2)
  case dead =>
    intro j
    exact Move.dead (move j) (f.dead j)
  case parents => exact fun j k => f.step_parents h
  case forked => exact fun i np => f.step_forked h
  case adopted => exact fun i np => f.step_adopted h
  case apart =>
    intro i np forks
    rcases step_forks h forks with old | ⟨call, place, slot⟩
    · exact f.apart i np old
    · exact unusedSlot_ne slot place
  case unique => exact fun i i' np => f.step_unique h
  case first =>
    refine ⟨f.step_first h, fun status fd exiting => ?_⟩
    rcases Move.exiting (move initproc) exiting with other | ⟨status, fd, before⟩
    · exact other rfl
    · exact f.first.2 status fd before

theorem reachable_family (h : Reachable v s) : Family s := by
  obtain ⟨es, hr⟩ := h
  exact run_invariant_all (fun _ _ _ f h => f.step h) boot_family hr

end FamilyTree
