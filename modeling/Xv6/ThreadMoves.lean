import Xv6.ProcessThreads

/-!
# What one step does to a slot with its thread

Inversion of every step, slot by slot. Invariants of the counters, of free slots
and of the family tree are derived from it, so that none of them unfolds the
step again.
-/

namespace ThreadMoves

open ProcTable ProcessThreads EventRuns Outcomes

@[simp] theorem set_cell (s : Machine) (i j : Slot) (c : Cell) :
    (s.set i c).cell j = if j = i then c else s.cell j := by
  by_cases h : j = i
  · subst h
    simp [Machine.set]
  · simp [Machine.set, h]

@[simp] theorem set_nextpid (s : Machine) (i : Slot) (c : Cell) :
    (s.set i c).nextpid = s.nextpid := rfl

@[simp] theorem setTable_cell (s : Machine) (t : Table) (j : Slot) :
    (s.setTable t).cell j = (s.cell j).setProc (t.proc j) := rfl

@[simp] theorem setTable_nextpid (s : Machine) (t : Table) :
    (s.setTable t).nextpid = t.nextpid := rfl

@[simp] theorem table_proc (s : Machine) (j : Slot) : s.table.proc j = s.proc j := rfl

@[simp] theorem table_nextpid (s : Machine) : s.table.nextpid = s.nextpid := rfl

@[simp] theorem setProc_setProc (c : Cell) (p q : Proc) :
    (c.setProc p).setProc q = c.setProc q := rfl

@[simp] theorem setProc_proc (c : Cell) (p : Proc) : (c.setProc p).proc = p := rfl
@[simp] theorem setProc_thread (c : Cell) (p : Proc) : (c.setProc p).thread = c.thread := rfl
@[simp] theorem setProc_ofile (c : Cell) (p : Proc) : (c.setProc p).ofile = c.ofile := rfl
@[simp] theorem setProc_lives (c : Cell) (p : Proc) : (c.setProc p).lives = c.lives := rfl
@[simp] theorem setProc_unexpected (c : Cell) (p : Proc) :
    (c.setProc p).unexpected = c.unexpected := rfl
@[simp] theorem setThread_proc (c : Cell) (t : Thread) : (c.setThread t).proc = c.proc := rfl
@[simp] theorem setThread_thread (c : Cell) (t : Thread) : (c.setThread t).thread = t := rfl
@[simp] theorem setThread_ofile (c : Cell) (t : Thread) : (c.setThread t).ofile = c.ofile := rfl
@[simp] theorem setThread_lives (c : Cell) (t : Thread) : (c.setThread t).lives = c.lives := rfl
@[simp] theorem setThread_unexpected (c : Cell) (t : Thread) :
    (c.setThread t).unexpected = c.unexpected := rfl

@[simp] theorem setProc_same (s : Machine) (j : Slot) :
    (s.cell j).setProc (s.proc j) = s.cell j := rfl

@[simp] theorem fileclose_proc (status : Int) (fd : Nat) (c : Cell) :
    (fileclose status fd c).proc = c.proc := by
  unfold fileclose
  split <;> rfl

@[simp] theorem fileclose_lives (status : Int) (fd : Nat) (c : Cell) :
    (fileclose status fd c).lives = c.lives := by
  unfold fileclose
  split <;> rfl

@[simp] theorem fileclose_unexpected (status : Int) (fd : Nat) (c : Cell) :
    (fileclose status fd c).unexpected = c.unexpected := by
  unfold fileclose
  split <;> rfl

/-- The loop over the descriptors stays in `exit`. -/
theorem fileclose_thread {status : Int} {fd : Nat} {c : Cell} (h : c.thread = .exiting status fd) :
    ∃ fd', (fileclose status fd c).thread = .exiting status fd' := by
  unfold fileclose
  split
  · exact ⟨fd + 1, rfl⟩
  · exact ⟨fd, h⟩

/-- A step that may panic, seen from the slot it changes. -/
theorem put_ok {s t : Machine} {i : Slot} {c : Except Panic Cell} (h : s.put i c = .ok t) :
    ∃ c', c = .ok c' ∧ t = s.set i c' := by
  obtain ⟨c', hc, same⟩ := map_eq_ok.mp h
  exact ⟨c', hc, same.symm⟩

theorem exit_ok {i : Slot} {status : Int} {c c' : Cell} (h : exit i status c = .ok c') :
    i ≠ initproc ∧ c' = c.setThread (.exiting status 0) := by
  unfold ProcessThreads.exit at h
  split at h
  · cases h
  · rename_i other
    exact ⟨other, (Except.ok.inj h).symm⟩

/-- How `usertrap` ends for process `i`. -/
inductive Trapped (i : Slot) (c : Cell) : Cause → Cell → Prop
  | call :
      Trapped i c .ecall ((c.setProc { c.proc with
        trapCount := c.proc.trapCount + 1,
        systemcallCount := c.proc.systemcallCount + 1 }).setThread .syscall)
  | killedCall (other : i ≠ initproc) :
      Trapped i c .ecall ((c.setProc { c.proc with
        trapCount := c.proc.trapCount + 1,
        systemcallCount := c.proc.systemcallCount + 1 }).setThread (.exiting (-1) 0))
  | unexpected (other : i ≠ initproc) :
      Trapped i c .unexpected { c with
        proc := { c.proc with trapCount := c.proc.trapCount + 1, killed := true }
        thread := .exiting (-1) 0
        unexpected := c.unexpected + 1 }
  | killed {cause : Cause} (device : cause = .timer ∨ cause = .device) (other : i ≠ initproc) :
      Trapped i c cause ((c.setProc { c.proc with
        trapCount := c.proc.trapCount + 1,
        interruptCount := c.proc.interruptCount + 1 }).setThread (.exiting (-1) 0))
  | preempted :
      Trapped i c .timer (c.setProc { c.proc with
        trapCount := c.proc.trapCount + 1,
        interruptCount := c.proc.interruptCount + 1,
        preemptCount := c.proc.preemptCount + 1,
        state := .runnable, context := .yield })
  | device :
      Trapped i c .device (c.setProc { c.proc with
        trapCount := c.proc.trapCount + 1,
        interruptCount := c.proc.interruptCount + 1 })

theorem usertrap_ok {i : Slot} {cause : Cause} {c c' : Cell} (h : usertrap i cause c = .ok c') :
    Trapped i c cause c' := by
  cases cause with
  | ecall =>
    simp only [usertrap] at h
    split at h
    · obtain ⟨other, rfl⟩ := exit_ok h
      exact .killedCall other
    · rw [← Except.ok.inj h]
      exact .call
  | unexpected =>
    obtain ⟨other, rfl⟩ := exit_ok h
    exact .unexpected other
  | timer =>
    simp only [usertrap] at h
    split at h
    · obtain ⟨other, rfl⟩ := exit_ok h
      exact .killed (Or.inl rfl) other
    · rw [← Except.ok.inj h]
      exact .preempted
  | device =>
    simp only [usertrap] at h
    split at h
    · obtain ⟨other, rfl⟩ := exit_ok h
      exact .killed (Or.inr rfl) other
    · rw [← Except.ok.inj h]
      exact .device

theorem usertrapret_ok {i : Slot} {c c' : Cell} (h : usertrapret i c = .ok c') :
    i ≠ initproc ∧ c' = c.setThread (.exiting (-1) 0) ∨ c' = c.setThread .user := by
  unfold usertrapret at h
  split at h
  · exact Or.inl (exit_ok h)
  · exact Or.inr (Except.ok.inj h).symm

/-- What the slot `j` may hold after the event `e`. -/
inductive Move (v : Version) (s : Machine) (e : Event) (j : Slot) : Cell → Prop
  | stays : Move v s e j (s.cell j)
  /-- Other processes wake the slot and hand it to `initproc`. -/
  | passive {parent : Option Slot} {state : ProcState}
      (parents : parent = (s.proc j).parent ∨
        ∃ i status fd, e = .finish i ∧ s.At i (· = .exiting status fd) ∧
          (s.proc j).parent = some i ∧ parent = some initproc)
      (states : state = (s.proc j).state ∨ (s.proc j).state = .sleeping ∧ state = .runnable) :
      Move v s e j ((s.cell j).setProc { s.proc j with parent := parent, state := state })
  | killed {pid : Int} {state : ProcState} (call : e = .kill pid) (hit : (s.proc j).pid = pid)
      (states : state = (s.proc j).state ∨ (s.proc j).state = .sleeping ∧ state = .runnable) :
      Move v s e j ((s.cell j).setProc { s.proc j with killed := true, state := state })
  | dispatched (call : e = .scheduler j) (before : (s.proc j).state = .runnable) :
      Move v s e j ((s.cell j).setProc (dispatched v (s.proc j)))
  | resumed (call : e = .mlfq j) (version : v = .project1c) (off : (s.proc j).state ≠ .running)
      (used : (s.proc j).state ≠ .unused) (alive : s.thread j ≠ .gone) :
      Move v s e j ((s.cell j).setProc (swtchTo (s.proc j)))
  | trapped {cause : Cause} {c : Cell} (call : e = .usertrap j cause) (place : s.At j (· = .user))
      (h : Trapped j (s.cell j) cause c) : Move v s e j c
  | preempted (call : e = .kerneltrap j true) (place : s.At j Thread.InKernel) :
      Move v s e j ((s.cell j).setProc (kerneltrap true (s.proc j)))
  | returned {thread : Thread} (call : e = .usertrapret j)
      (place : s.At j fun t => t = .syscall ∨ t = .forkret)
      (threads : thread = .user ∨ j ≠ initproc ∧ thread = .exiting (-1) 0) :
      Move v s e j ((s.cell j).setThread thread)
  | slept {chan : Chan} (call : e = .sleep j chan ∨ ∃ delivered, e = .wait j delivered)
      (place : s.At j Thread.MaySleep) :
      Move v s e j ((s.cell j).setProc { s.proc j with
        sleepCount := (s.proc j).sleepCount + 1,
        chan := some chan, state := .sleeping, context := .sleep })
  | forked {np : Slot} (call : e = .fork j true true) (place : s.At j (· = .syscall))
      (slot : unusedSlot s.table = some np) :
      Move v s e j ((s.cell j).setThread (.forked np))
  | allocated {i : Slot} (call : e = .fork i true true) (place : s.At i (· = .syscall))
      (slot : unusedSlot s.table = some j) :
      Move v s e j (child (s.cell i) ((s.cell j).setProc { s.proc j with
        pid := s.nextpid, state := .used, context := .forkret, mlfqInfo := .zero }))
  | refused {i : Slot} {memory copied : Bool} {p : Proc} (call : e = .fork i memory copied)
      (slot : unusedSlot s.table = some j) (freed : ∃ q, p = freeproc q) :
      Move v s e j ((s.cell j).setProc p)
  | adopted {np : Slot} (call : e = .adopt j) (place : s.At j (· = .forked np)) :
      Move v s e j ((s.cell j).setThread (.adopted np))
  | parented {i : Slot} (call : e = .adopt i) (place : s.At i (· = .forked j)) (other : j ≠ i) :
      Move v s e j ((s.cell j).setProc { s.proc j with parent := some i })
  | spawned {np : Slot} (call : e = .launch j) (place : s.At j (· = .adopted np)) :
      Move v s e j ((s.cell j).setThread .syscall)
  | launched {i : Slot} (call : e = .launch i) (place : s.At i (· = .adopted j)) (other : j ≠ i) :
      Move v s e j ((s.cell j).setProc { s.proc j with state := .runnable })
  | exits {status : Int} (call : e = .exit j status) (place : s.At j (· = .syscall))
      (other : j ≠ initproc) : Move v s e j ((s.cell j).setThread (.exiting status 0))
  | closes {status : Int} {fd : Nat} (call : e = .fileclose j)
      (place : s.At j (· = .exiting status fd)) :
      Move v s e j (fileclose status fd (s.cell j))
  | finished {status : Int} {fd : Nat} {parent : Option Slot} (call : e = .finish j)
      (place : s.At j (· = .exiting status fd)) (closed : nofile ≤ fd)
      (parents : parent =
        if (s.proc j).parent = some j then some initproc else (s.proc j).parent) :
      Move v s e j (((s.cell j).setProc { s.proc j with
        parent := parent, xstate := status, state := .zombie, context := .exit }).setThread .gone)
  | freed {i : Slot} (call : e = .wait i true) (place : s.At i (· = .syscall))
      (slot : zombieChild s.table i = some j) : Move v s e j (s.cell j).free
  | files {ofile : Fin nofile → Option File} (place : s.At j (· = .syscall)) :
      Move v s e j { s.cell j with ofile := ofile }

variable {v : Version} {s : Machine} {e : Event}

theorem move_set {i : Slot} {c : Cell} (own : Move v s e i c) (j : Slot) :
    Move v s e j ((s.set i c).cell j) := by
  by_cases h : j = i
  · subst h
    simpa using own
  · simpa [h] using Move.stays

/-- The slot that `allocproc` takes is not the one that executes. -/
theorem unusedSlot_ne {i np : Slot} {P : Thread → Prop} (slot : unusedSlot s.table = some np)
    (place : s.At i P) : np ≠ i := by
  rintro rfl
  have empty : (s.proc np).state = .unused := unusedSlot_state slot
  simp [place.1] at empty

theorem wakeup_states (t : Table) (self : Option Slot) (chan : Option Chan) (j : Slot) :
    ∃ state, (wakeup t self chan).proc j = { t.proc j with state := state } ∧
      (state = (t.proc j).state ∨ (t.proc j).state = .sleeping ∧ state = .runnable) := by
  simp only [wakeup]
  split
  · rename_i h
    exact ⟨.runnable, rfl, Or.inr ⟨h.2.1, rfl⟩⟩
  · exact ⟨_, rfl, Or.inl rfl⟩

theorem reparent_passive (t : Table) (i j : Slot) :
    ∃ parent state, (reparent t i).proc j = { t.proc j with parent := parent, state := state } ∧
      parent = (if (t.proc j).parent = some i then some initproc else (t.proc j).parent) ∧
      (state = (t.proc j).state ∨ (t.proc j).state = .sleeping ∧ state = .runnable) := by
  by_cases child : (t.proc j).parent = some i
  · have some_child : ∃ j, (t.proc j).parent = some i := ⟨j, child⟩
    simp only [reparent, some_child, ↓reduceIte, child]
    obtain ⟨state, same, states⟩ := wakeup_states
      { t with proc := fun j =>
          if (t.proc j).parent = some i then { t.proc j with parent := some initproc }
          else t.proc j } (some i) (some (.proc initproc)) j
    simp only [child, ↓reduceIte] at same states
    exact ⟨_, state, same, rfl, states⟩
  · simp only [reparent, child, ↓reduceIte]
    split
    · obtain ⟨state, same, states⟩ := wakeup_states
        { t with proc := fun j =>
            if (t.proc j).parent = some i then { t.proc j with parent := some initproc }
            else t.proc j } (some i) (some (.proc initproc)) j
      simp only [child, ↓reduceIte] at same states
      exact ⟨_, state, same, rfl, states⟩
    · exact ⟨_, _, by simp only [child, ↓reduceIte], rfl, Or.inl rfl⟩

/-- What the final section of `exit` does to the other slots. -/
theorem exit_others (t : Table) {i j : Slot} (status : Int) (other : j ≠ i) :
    ∃ parent state,
      (ProcTable.exit t i status).proc j = { t.proc j with parent := parent, state := state } ∧
      parent = (if (t.proc j).parent = some i then some initproc else (t.proc j).parent) ∧
      (state = (t.proc j).state ∨ (t.proc j).state = .sleeping ∧ state = .runnable) := by
  obtain ⟨parent, state, moved, parents, states⟩ := reparent_passive t i j
  obtain ⟨state', woken, states'⟩ := wakeup_states (reparent t i) (some i)
    (((reparent t i).proc i).parent.map .proc) j
  refine ⟨parent, state', ?_, parents, ?_⟩
  · simp only [ProcTable.exit, Table.set_other _ _ other, woken, moved]
  · rw [moved] at states'
    rcases states with same | ⟨slept, awake⟩
    · simpa [same] using states'
    · simp_all

/-- What it does to the process itself, whose own parent may be itself. -/
theorem exit_self (t : Table) (i : Slot) (status : Int) :
    ∃ parent, (ProcTable.exit t i status).proc i = { t.proc i with
        parent := parent, xstate := status, state := .zombie, context := .exit } ∧
      parent = if (t.proc i).parent = some i then some initproc else (t.proc i).parent := by
  obtain ⟨parent, state, moved, parents, -⟩ := reparent_passive t i i
  exact ⟨parent, by simp [ProcTable.exit, wakeup, moved], parents⟩

/-- `kill` fails, or changes the first slot with the pid. -/
theorem kill_cases (t : Table) (pid : Int) :
    (kill t pid = (-1, t) ∧ ∀ j, (t.proc j).pid ≠ pid) ∨
      ∃ j, (t.proc j).pid = pid ∧
        kill t pid = (0, t.set j (if (t.proc j).state = .sleeping then
          { t.proc j with killed := true, state := .runnable }
        else { t.proc j with killed := true })) := by
  unfold kill
  cases hf : (List.finRange nproc).find? fun j => (t.proc j).pid = pid with
  | none =>
    refine Or.inl ⟨rfl, fun j => ?_⟩
    simpa using List.find?_eq_none.mp hf j (List.mem_finRange j)
  | some j =>
    have found := List.find?_some hf
    exact Or.inr ⟨j, of_decide_eq_true found, rfl⟩

theorem kill_move (pid : Int) (j : Slot) :
    Move v s (.kill pid) j ((s.setTable (kill s.table pid).2).cell j) := by
  rcases kill_cases s.table pid with ⟨failed, -⟩ | ⟨i, hit, found⟩
  · rw [failed]
    exact .stays
  · rw [found]
    by_cases h : j = i
    · subst h
      simp only [setTable_cell, Table.set_self]
      split
      · rename_i slept
        exact .killed rfl hit (Or.inr ⟨slept, rfl⟩)
      · exact .killed rfl hit (Or.inl rfl)
    · simpa [h] using Move.stays

theorem fork_move {i : Slot} {memory copied : Bool} (place : s.At i (· = .syscall)) (j : Slot) :
    Move v s (.fork i memory copied) j ((ProcessThreads.fork s i memory copied).cell j) := by
  unfold ProcessThreads.fork allocproc
  cases hu : unusedSlot s.table with
  | none => exact .stays
  | some np =>
    have apart : np ≠ i := unusedSlot_ne hu place
    cases memory with
    | false =>
      by_cases h : j = np
      · subst h
        simpa using Move.refused rfl hu ⟨_, rfl⟩
      · simpa [h] using Move.stays
    | true =>
      cases copied with
      | false =>
        by_cases h : j = np
        · subst h
          simpa [Machine.proc] using Move.refused rfl hu ⟨_, rfl⟩
        · simpa [h] using Move.stays
      | true =>
        by_cases h : j = i
        · subst h
          simpa [Ne.symm apart] using Move.forked rfl place hu
        · by_cases h' : j = np
          · subst h'
            simpa [h, Ne.symm apart] using Move.allocated rfl place hu
          · simpa [h, h'] using Move.stays

theorem adopt_move {i np : Slot} (place : s.At i (· = .forked np)) (j : Slot) :
    Move v s (.adopt i) j ((adopt s i np).cell j) := by
  unfold adopt
  by_cases hi : j = i
  · subst hi
    simpa using Move.adopted rfl place
  · by_cases hn : j = np
    · subst hn
      simpa [hi] using Move.parented rfl place hi
    · simpa [hi, hn] using Move.stays

theorem launch_move {i np : Slot} (place : s.At i (· = .adopted np)) (j : Slot) :
    Move v s (.launch i) j ((launch s i np).cell j) := by
  unfold launch
  by_cases hi : j = i
  · subst hi
    simpa using Move.spawned rfl place
  · by_cases hn : j = np
    · subst hn
      simpa [hi] using Move.launched rfl place hi
    · simpa [hi, hn] using Move.stays

theorem sleep_move {i : Slot} {chan : Chan}
    (call : e = .sleep i chan ∨ ∃ delivered, e = .wait i delivered)
    (place : s.At i Thread.MaySleep) (j : Slot) :
    Move v s e j ((s.setTable (ProcTable.sleep s.table i chan)).cell j) := by
  by_cases hj : j = i
  · subst hj
    simpa [ProcTable.sleep] using Move.slept call place
  · simpa [ProcTable.sleep, hj] using Move.stays

theorem finish_move {i : Slot} {status : Int} {fd : Nat} (place : s.At i (· = .exiting status fd))
    (closed : nofile ≤ fd) (j : Slot) :
    Move v s (.finish i) j ((finish s i status).cell j) := by
  unfold finish
  by_cases h : j = i
  · subst h
    obtain ⟨parent, same, parents⟩ := exit_self s.table j status
    simp only [set_cell, setTable_cell, same, if_true]
    exact .finished rfl place closed parents
  · obtain ⟨parent, state, same, parents, states⟩ := exit_others s.table status h
    simp only [set_cell, setTable_cell, same, h, if_false]
    refine .passive ?_ states
    rw [parents]
    split
    · rename_i child
      exact Or.inr ⟨i, status, fd, rfl, place, child, rfl⟩
    · exact Or.inl rfl

theorem wait_move {i : Slot} {delivered : Bool} (place : s.At i (· = .syscall)) (j : Slot) :
    Move v s (.wait i delivered) j ((ProcessThreads.wait s i delivered).cell j) := by
  unfold ProcessThreads.wait
  cases hz : zombieChild s.table i with
  | none =>
    simp only [ProcTable.wait, hz]
    split
    · exact .stays
    · have may : s.At i Thread.MaySleep := ⟨place.1, by rw [place.2]; trivial⟩
      exact sleep_move (Or.inr ⟨delivered, rfl⟩) may j
  | some z =>
    cases delivered with
    | false => exact .stays
    | true => exact move_set (.freed rfl place hz) j

section

variable {P : Prop} [Decidable P] {t : Machine} {j : Slot}

/-- An event whose guard fails leaves every slot as it is. -/
theorem guarded_move {u : Machine} (h : (if P then .ok u else .ok s : Except Panic Machine) = .ok t)
    (moves : P → Move v s e j (u.cell j)) : Move v s e j (t.cell j) := by
  split at h <;> rw [← Except.ok.inj h]
  next holds => exact moves holds
  next => exact .stays

theorem put_move {i : Slot} {c : Except Panic Cell}
    (h : (if P then s.put i c else .ok s) = .ok t)
    (moves : P → ∀ c', c = .ok c' → Move v s e i c') : Move v s e j (t.cell j) := by
  split at h
  next holds =>
    obtain ⟨c', hc, rfl⟩ := put_ok h
    exact move_set (moves holds c' hc) j
  next =>
    rw [← Except.ok.inj h]
    exact .stays

/-- An event of a thread that is elsewhere. -/
theorem idle_move (h : (.ok s : Except Panic Machine) = .ok t) : Move v s e j (t.cell j) := by
  rw [← Except.ok.inj h]
  exact .stays

theorem mlfq_move {i : Slot} (h : step v s (.mlfq i) = .ok t) :
    Move v s (.mlfq i) j (t.cell j) := by
  simp only [step] at h
  split at h
  next => exact idle_move h
  next guard =>
    split at h
    next => cases h
    next used =>
      split at h
      next => cases h
      next alive =>
        rw [← Except.ok.inj h]
        rw [not_or] at guard
        have version : v = .project1c := by
          cases v with
          | project1b => exact absurd rfl guard.1
          | project1c => rfl
        exact move_set (.resumed rfl version guard.2 used alive) j

theorem usertrapret_move {i : Slot} {c : Cell}
    (place : s.At i fun t => t = .syscall ∨ t = .forkret)
    (returns : usertrapret i (s.cell i) = .ok c) : Move v s (.usertrapret i) i c := by
  rcases usertrapret_ok returns with ⟨other, rfl⟩ | rfl
  · exact .returned rfl place (Or.inr ⟨other, rfl⟩)
  · exact .returned rfl place (Or.inl rfl)

theorem wakeup_move {self : Option Slot} {chan : Chan} :
    Move v s (.wakeup self chan) j
      ((s.setTable (wakeup s.table self (some chan))).cell j) := by
  obtain ⟨state, same, states⟩ := wakeup_states s.table self (some chan) j
  rw [setTable_cell, same]
  exact .passive (Or.inl rfl) states

end

/-- Every step, by what it does to a slot. -/
theorem step_move {t : Machine} (h : step v s e = .ok t) (j : Slot) : Move v s e j (t.cell j) := by
  cases e with
  | scheduler i => exact guarded_move h fun before => move_set (.dispatched rfl before) j
  | mlfq i => exact mlfq_move h
  | usertrap i cause => exact put_move h fun place c traps => .trapped rfl place (usertrap_ok traps)
  | kerneltrap i timer =>
    refine guarded_move h fun place => ?_
    cases timer with
    | false => exact move_set .stays j
    | true => exact move_set (.preempted rfl place) j
  | usertrapret i => exact put_move h fun place c returns => usertrapret_move place returns
  | sleep i chan => exact guarded_move h fun place => sleep_move (Or.inl rfl) place j
  | wakeup self chan =>
    rw [← Except.ok.inj h]
    exact wakeup_move
  | kill pid =>
    rw [← Except.ok.inj h]
    exact kill_move pid j
  | fork i memory copied => exact guarded_move h fun place => fork_move place j
  | adopt i =>
    simp only [step] at h
    split at h
    next thread => exact guarded_move h fun running => adopt_move ⟨running, thread⟩ j
    next => exact idle_move h
  | launch i =>
    simp only [step] at h
    split at h
    next thread => exact guarded_move h fun running => launch_move ⟨running, thread⟩ j
    next => exact idle_move h
  | exit i status =>
    refine put_move h fun place c exits => ?_
    obtain ⟨other, rfl⟩ := exit_ok exits
    exact .exits rfl place other
  | fileclose i =>
    simp only [step] at h
    split at h
    next thread =>
      exact guarded_move h fun running => move_set (.closes rfl ⟨running, thread⟩) j
    next => exact idle_move h
  | finish i =>
    simp only [step] at h
    split at h
    next thread =>
      exact guarded_move h fun guard => finish_move ⟨guard.1, thread⟩ guard.2 j
    next => exact idle_move h
  | wait i delivered => exact guarded_move h fun place => wait_move place j
  | fdalloc i fd f => exact guarded_move h fun guard => move_set (.files guard.1) j
  | close i fd => exact guarded_move h fun place => move_set (.files place) j

/-- A successful `fork` makes the free slot a process in use. -/
theorem fork_child {t : Machine} {i np : Slot} (place : s.At i (· = .syscall))
    (slot : unusedSlot s.table = some np) (h : step v s (.fork i true true) = .ok t) :
    t.cell np = child (s.cell i) ((s.cell np).setProc { s.proc np with
      pid := s.nextpid, state := .used, context := .forkret, mlfqInfo := .zero }) := by
  have apart : np ≠ i := unusedSlot_ne slot place
  simp only [step, place, ↓reduceIte] at h
  rw [← Except.ok.inj h]
  simp [ProcessThreads.fork, allocproc, slot, apart, Ne.symm apart]

theorem adopt_child {t : Machine} {i np : Slot} (place : s.At i (· = .forked np))
    (apart : np ≠ i) (h : step v s (.adopt i) = .ok t) :
    t.thread i = .adopted np ∧
      t.cell np = (s.cell np).setProc { s.proc np with parent := some i } := by
  obtain ⟨running, thread⟩ := place
  simp only [step, thread, running, ↓reduceIte] at h
  rw [← Except.ok.inj h]
  simp [adopt, Machine.thread, apart]

theorem launch_thread {t : Machine} {i np : Slot} (place : s.At i (· = .adopted np))
    (h : step v s (.launch i) = .ok t) : t.thread i = .syscall := by
  obtain ⟨running, thread⟩ := place
  simp only [step, thread, running, ↓reduceIte] at h
  rw [← Except.ok.inj h]
  simp [launch, Machine.thread]

/-- The final section of `exit` leaves no child behind. -/
theorem finish_orphans {t : Machine} {i : Slot} {status : Int} {fd : Nat}
    (place : s.At i (· = .exiting status fd)) (closed : nofile ≤ fd) (other : i ≠ initproc)
    (h : step v s (.finish i) = .ok t) (j : Slot) (apart : j ≠ i) :
    (t.proc j).parent ≠ some i := by
  obtain ⟨running, thread⟩ := place
  simp only [step, thread, running, closed, and_self, ↓reduceIte] at h
  obtain ⟨parent, state, same, parents, -⟩ := exit_others s.table status apart
  have cell : t.proc j = (ProcTable.exit s.table i status).proc j := by
    rw [← Except.ok.inj h]
    simp [finish, Machine.proc, apart]
  rw [cell, same]
  simp only [parents]
  split
  · simpa using Ne.symm other
  · assumption

end ThreadMoves
