import Xv6.TrapAccounting

/-!
# Free slots are clean

`allocproc` relies on fields that only `freeproc` and the boot set. Every
operation leaves a free slot as `freeproc` left it, but for `kill`: a free slot
has the pid 0, and the search of `kill` does not look at the state.
-/

namespace SlotHygiene

open ProcTable ProcessThreads ThreadMoves FamilyTree EventRuns Outcomes

/-- The six counters of `getschedhistory`. -/
def Uncounted (p : Proc) : Prop :=
  p.runCount = 0 ∧ p.systemcallCount = 0 ∧ p.interruptCount = 0 ∧
    p.preemptCount = 0 ∧ p.trapCount = 0 ∧ p.sleepCount = 0

structure Clean (c : Cell) : Prop where
  pid : c.proc.pid = 0
  killed : c.proc.killed = false
  chan : c.proc.chan = none
  xstate : c.proc.xstate = 0
  parent : c.proc.parent = none
  counters : Uncounted c.proc
  mlfqInfo : c.proc.mlfqInfo = .zero
  ofile : ∀ fd, c.ofile fd = none

/-- What `allocproc` hands out. -/
structure Unstained (p : Proc) : Prop where
  killed : p.killed = false
  counters : Uncounted p
  mlfqInfo : p.mlfqInfo = .zero

/-- `kill` found a process in use, and changed no other slot. -/
def KillHits (s t : Machine) (pid : Int) : Prop :=
  (kill s.table pid).1 = 0 →
    ∃ j, (s.proc j).state ≠ .unused ∧ (s.proc j).pid = pid ∧ ∀ i, i ≠ j → t.cell i = s.cell i

/-- The step leaves free slots clean, hands out unstained ones, and a `kill` that succeeds
hits a process. -/
def Lawful (s : Machine) (e : Event) : Prop :=
  ∀ t, step .project1c s e = .ok t →
    (∀ j, (t.proc j).state = .unused → Clean (t.cell j)) ∧
    (∀ j, (s.proc j).state = .unused → (t.proc j).state ≠ .unused → Unstained (t.proc j)) ∧
    ∀ pid, e = .kill pid → KillHits s t pid

/-- The pid 0 is not searched for while a slot is free. -/
def Aimed (s : Machine) : Event → Prop
  | .kill pid => pid = 0 → ∀ j, (s.proc j).state ≠ .unused
  | _ => True

variable {v : Version} {s t : Machine} {e : Event} {j : Slot} {c : Cell}

/-- The descriptors that `exit` has passed are closed. -/
structure Closed (c : Cell) : Prop where
  gone : c.thread = .gone → ∀ fd, c.ofile fd = none
  exiting : ∀ status n, c.thread = .exiting status n → ∀ fd : Fin nofile, fd.val < n →
    c.ofile fd = none

theorem Closed.of_thread (gone : c.thread ≠ .gone)
    (exiting : ∀ status n, c.thread = .exiting status n → n = 0) : Closed c where
  gone h := absurd h gone
  exiting status n h fd passed := by
    have := exiting status n h
    omega

theorem Move.closed (m : Move v s e j c) (before : Closed (s.cell j)) : Closed c := by
  cases m with
  | trapped call place trap =>
    have user : (s.cell j).thread = .user := place.2
    cases trap <;> exact .of_thread (by simp [user]) (by simp [user])
  | returned call place threads =>
    rcases threads with rfl | ⟨-, rfl⟩ <;> exact .of_thread (by simp) (by simp)
  | forked | adopted | spawned | exits => exact .of_thread (by simp) (by simp)
  | allocated => exact .of_thread (by simp [child]) (by simp [child])
  | files place =>
    have syscall : (s.cell j).thread = .syscall := place.2
    exact .of_thread (by simp [syscall]) (by simp [syscall])
  | @closes status n call place =>
    have passed := before.exiting status n place.2
    unfold fileclose
    split
    · rename_i inRange
      refine ⟨by simp, fun status' n' h fd low => ?_⟩
      obtain ⟨-, rfl⟩ : status = status' ∧ n + 1 = n' := by simpa using h
      by_cases last : fd = ⟨n, inRange⟩
      · simp [Cell.closeFd, last]
      · have : fd.val ≠ n := fun h => last (Fin.ext h)
        simpa [Cell.closeFd, last] using passed fd (by omega)
    · exact before
  | @finished status n parent call place closed =>
    refine ⟨fun _ fd => before.exiting status n place.2 fd ?_, by simp⟩
    exact fd.isLt.trans_le closed
  | dispatched => cases v <;> exact ⟨before.gone, before.exiting⟩
  | _ => exact ⟨before.gone, before.exiting⟩

/-- A free slot changes only by being killed, or by `allocproc`. -/
theorem Move.clean (m : Move v s e j c) (family : Family s) (closed : Closed (s.cell j))
    (before : (s.proc j).state = .unused → Clean (s.cell j))
    (aimed : ∀ pid, e = .kill pid → (s.proc j).state = .unused → (s.proc j).pid ≠ pid)
    (h : c.proc.state = .unused) : Clean c := by
  rcases Move.vacated m h with empty | ⟨i, -, -, slot, rfl⟩
  · obtain ⟨pid, killed, chan, xstate, parent, counters, info, ofile⟩ := before empty
    cases m with
    | stays => exact ⟨pid, killed, chan, xstate, parent, counters, info, ofile⟩
    | passive parents states =>
      rcases parents with rfl | ⟨i, status, fd, -, -, orphan, -⟩
      · exact ⟨pid, killed, chan, xstate, parent, counters, info, ofile⟩
      · exact absurd (parent.symm.trans orphan) (by simp)
    | killed call hit => exact absurd hit (aimed _ call empty)
    | parented call place => exact absurd empty (family.forked _ _ place.2).1
    | refused call slot freed =>
      obtain ⟨q, rfl⟩ := freed
      exact ⟨rfl, rfl, rfl, rfl, rfl, ⟨rfl, rfl, rfl, rfl, rfl, rfl⟩, rfl, ofile⟩
    | dispatched => cases v <;> cases h
    | trapped call place | preempted call place | returned call place | slept call place
    | forked call place | adopted call place | spawned call place | exits call place
    | closes call place | finished call place | files place =>
      exact absurd (empty.symm.trans place.1) (by simp)
    | resumed call version off inUse => exact absurd empty inUse
    | launched | allocated => cases h
    | freed call place slot =>
      exact absurd (empty.symm.trans (zombieChild_state slot).2) (by simp)
  · have gone := family.dead j (Or.inr (zombieChild_state slot).2)
    exact ⟨rfl, rfl, rfl, rfl, rfl, ⟨rfl, rfl, rfl, rfl, rfl, rfl⟩, rfl, closed.gone gone⟩

/-- A slot that is taken is handed out unkilled and with zeroed accounting. -/
theorem Move.unstained (m : Move v s e j c) (family : Family s)
    (empty : (s.proc j).state = .unused) (clean : Clean (s.cell j))
    (used : c.proc.state ≠ .unused) : Unstained c.proc := by
  cases m with
  | allocated => exact ⟨clean.killed, clean.counters, rfl⟩
  | stays | parented => exact absurd empty used
  | passive parents states | killed call hit states =>
    rcases states with rfl | ⟨slept, -⟩
    · exact absurd empty used
    · exact absurd (empty.symm.trans slept) (by simp)
  | refused call slot freed =>
    obtain ⟨q, rfl⟩ := freed
    exact absurd rfl used
  | freed => exact absurd rfl used
  | launched call place => exact absurd empty (family.used (Or.inr place.2))
  | dispatched call runnable => exact absurd (empty.symm.trans runnable) (by simp)
  | resumed call version off inUse => exact absurd empty inUse
  | trapped call place | preempted call place | returned call place | slept call place
  | forked call place | adopted call place | spawned call place | exits call place
  | closes call place | finished call place | files place =>
    exact absurd (empty.symm.trans place.1) (by simp)

structure Hygiene (s : Machine) : Prop where
  family : Family s
  closed : ∀ j, Closed (s.cell j)
  clean : ∀ j, (s.proc j).state = .unused → Clean (s.cell j)

theorem boot_hygiene : Hygiene boot := by
  refine ⟨boot_family, fun j => ⟨fun _ _ => rfl, fun _ _ _ _ _ => rfl⟩, fun j empty => ?_⟩
  have other : j ≠ initproc := by
    rintro rfl
    simp [boot_state] at empty
  have image : (boot.cell j).proc = .boot := boot_unused other
  constructor
  case ofile => exact fun _ => rfl
  all_goals simp [image, Proc.boot, Uncounted]

/-- In a clean state `kill` misses the free slots unless it searches for 0. -/
theorem Hygiene.misses (h : Hygiene s) (aimed : Aimed s e) (j : Slot) (pid : Int)
    (call : e = .kill pid) (empty : (s.proc j).state = .unused) : (s.proc j).pid ≠ pid := by
  subst call
  rintro rfl
  exact aimed (h.clean j empty).pid j empty

theorem Hygiene.step (h : Hygiene s) (aimed : Aimed s e) (hs : step v s e = .ok t) :
    Hygiene t := by
  have move := step_move hs
  refine ⟨h.family.step hs, fun j => Move.closed (move j) (h.closed j), fun j empty => ?_⟩
  exact Move.clean (move j) h.family (h.closed j) (h.clean j) (h.misses aimed j) empty

theorem lawful_iff_aimed (h : Hygiene s) : Lawful s e ↔ Aimed s e := by
  constructor
  · intro lawful
    cases e with
    | kill pid =>
      rintro rfl j empty
      obtain ⟨-, -, hits⟩ := lawful _ rfl
      have found : (kill s.table 0).1 = 0 := by
        rcases kill_cases s.table 0 with ⟨-, missed⟩ | ⟨k, -, found⟩
        · exact absurd (h.clean j empty).pid (missed j)
        · rw [found]
      obtain ⟨k, used, pid, -⟩ := hits 0 rfl found
      have := h.family.pids k used
      omega
    | _ => trivial
  · intro aimed t ht
    refine ⟨(h.step aimed ht).clean, fun j empty used => ?_, fun pid call zero => ?_⟩
    · exact Move.unstained (step_move ht j) h.family empty (h.clean j empty) used
    · subst call
      rw [← Except.ok.inj ht]
      rcases kill_cases s.table pid with ⟨failed, -⟩ | ⟨j, hit, found⟩
      · rw [failed] at zero
        cases zero
      · refine ⟨j, fun empty => h.misses aimed j pid rfl empty hit, hit, fun i other => ?_⟩
        rw [found]
        simp [other]

/-- Free slots are clean, `allocproc` hands out clean processes and `kill` hits
processes in use only, exactly as long as `kill(0)` is not called while a slot is
free. -/
theorem slots_clean_iff (es : List Event) :
    Meets (step .project1c) Lawful boot es ↔ Meets (step .project1c) Aimed boot es := by
  refine meets_iff (I := Hygiene) ?_ ?_ boot_hygiene
  · exact fun s e t h aimed hs => h.step aimed hs
  · exact fun s e h => lawful_iff_aimed h

/-- `kill(0)` returns 0 and marks a free slot, and the next child starts killed. -/
theorem child_starts_killed :
    Yields (run (step .project1c) boot [.scheduler 0, .usertrapret 0, .usertrap 0 .ecall, .kill 0])
      (fun s => (s.proc 1).state = .unused ∧ (s.proc 1).killed = true) ∧
    Yields (run (step .project1c) boot
      [.scheduler 0, .usertrapret 0, .usertrap 0 .ecall, .kill 0, .fork 0 true true])
      (fun s => (s.proc 1).state = .used ∧ (s.proc 1).killed = true) := by
  decide +kernel

end SlotHygiene
