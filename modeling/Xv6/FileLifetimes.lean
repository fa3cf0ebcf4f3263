import Xv6.FileSlots

/-!
# When a file goes

Every step keeps the references counted, and a step calls `pipeclose` or `iput` for a
file exactly when it gives up the last reference to a file that has been set up.
-/

namespace FileLifetimes

open EventRuns FileSlots FileTable Function Outcomes

variable {n : Nat} {s t u : State n}

/-- The child of a fork under way is filled in by nobody else, from descriptor `i` on. -/
structure Filling (s : State n) (p np : Fin n) (i : Nat) : Prop where
  embryo : (s.proc np).pc = .embryo
  empty : ∀ fd : Fin NOFILE, i ≤ fd.val → (s.proc np).ofile fd = none
  unique : ∀ q j pid, (s.proc q).pc = .forking np j pid → q = p

def Forks (s : State n) : Prop :=
  ∀ p np i pid, (s.proc p).pc = .forking np i pid → Filling s p np i

/-- A step calls `pipeclose` or `iput` for a file. -/
def Calls (s t : State n) (f : Fin NFILE) : Prop :=
  ∃ l, (s.ftable f).last = some l ∧ t.released = (f, l) :: s.released

/-- These calls are for the files that the step frees. -/
def Releases (s t : State n) : Prop :=
  ∀ f, Calls s t f ↔
    (s.ftable f).type ≠ .none ∧ 0 < (s.ftable f).ref ∧ (t.ftable f).ref = 0

structure Advance (s t : State n) : Prop where
  refs : Refs t
  forks : Forks t
  releases : Releases s t

theorem Refs.congr (inv : Refs s) (proc : t.proc = s.proc) (ftable : t.ftable = s.ftable) :
    Refs t := by
  have same : users t = users s := by
    funext f
    rw [users, users, proc]
  constructor
  · rw [ftable, same]
    exact inv.refs
  · rw [ftable]
    exact inv.free
  · rw [proc, ftable]
    exact inv.unset
  · rw [proc, ftable]
    exact inv.set
  · rw [proc]
    exact inv.cleared

theorem last_some {x : File} : (∃ l, x.last = some l) ↔ x.type ≠ .none := by
  unfold File.last
  cases x.type <;> simp

theorem Releases.quiet (released : t.released = s.released)
    (kept : ∀ f, 0 < (s.ftable f).ref → 0 < (t.ftable f).ref) : Releases s t := by
  intro f
  constructor
  · rintro ⟨l, -, longer⟩
    rw [released] at longer
    exact absurd (congrArg List.length longer) (by simp)
  · rintro ⟨-, pos, zero⟩
    have := kept f pos
    omega

theorem Releases.closes {f : Fin NFILE} (drop : Dropped s.ftable t.ftable f)
    (released : t.released = if (t.ftable f).ref = 0 then
      ((s.ftable f).last.map fun l => (f, l)).toList ++ s.released else s.released) :
    Releases s t := by
  have ref := drop.ref
  intro g
  rw [Calls, released]
  constructor
  · rintro ⟨l, last, longer⟩
    have typed := last_some.mp ⟨l, last⟩
    split at longer
    · rename_i zero
      cases here : (s.ftable f).last with
      | none =>
        rw [here] at longer
        exact absurd (congrArg List.length longer) (by simp)
      | some l' =>
        rw [here] at longer
        simp only [Option.map_some, Option.toList_some, List.singleton_append, List.cons.injEq,
          Prod.mk.injEq, and_true] at longer
        obtain ⟨rfl, -⟩ := longer
        exact ⟨typed, by omega, zero⟩
    · exact absurd (congrArg List.length longer) (by simp)
  · rintro ⟨typed, pos, zero⟩
    by_cases same : g = f
    · subst same
      obtain ⟨l, last⟩ := last_some.mpr typed
      refine ⟨l, last, ?_⟩
      rw [if_pos zero, last]
      rfl
    · rw [drop.others g same] at zero
      omega

/-- A step of one process that is no fork keeps the children of the others. -/
theorem Forks.goes (forks : Forks s) {p : Fin n} {x : Proc n} (proc : t.proc = update s.proc p x)
    (grown : (s.proc p).pc ≠ .embryo)
    (later : ∀ np i pid, x.pc = .forking np i pid →
      ∃ j pid', (s.proc p).pc = .forking np j pid' ∧ j ≤ i) : Forks t := by
  have others (q : Fin n) (other : q ≠ p) : t.proc q = s.proc q := by rw [proc, update_of_ne other]
  have self : t.proc p = x := by rw [proc, update_self]
  have before (q np : Fin n) (i : Nat) (pid : Int) (forking : (t.proc q).pc = .forking np i pid) :
      ∃ j pid', (s.proc q).pc = .forking np j pid' ∧ j ≤ i := by
    by_cases same : q = p
    · subst same
      rw [self] at forking
      exact later np i pid forking
    · rw [others q same] at forking
      exact ⟨i, pid, forking, le_rfl⟩
  intro q np i pid forking
  obtain ⟨j, pid', old, le⟩ := before q np i pid forking
  have filling := forks q np j pid' old
  have apart : np ≠ p := by
    rintro rfl
    exact grown filling.embryo
  constructor
  · rw [others np apart]
    exact filling.embryo
  · intro fd high
    rw [others np apart]
    exact filling.empty fd (by omega)
  · intro r k pid'' also
    obtain ⟨k', pid₀, old', -⟩ := before r np k pid'' also
    exact filling.unique r k' pid₀ old'

theorem not_later {p : Fin n} {pc : Pc n} (no : ∀ np i pid, pc ≠ .forking np i pid) :
    ∀ np i pid, pc = .forking np i pid →
      ∃ j pid', (s.proc p).pc = .forking np j pid' ∧ j ≤ i :=
  fun np i pid is => absurd is (no np i pid)

/-- A process without files in its hands goes on to where it has none. -/
theorem Advance.walks (inv : Refs s) (forks : Forks s) {p : Fin n} {pc : Pc n}
    (proc : t.proc = update s.proc p ⟨pc, (s.proc p).ofile⟩) (ftable : t.ftable = s.ftable)
    (released : t.released = s.released) (grown : (s.proc p).pc ≠ .embryo)
    (before : held (s.proc p).pc = []) (after : held pc = [])
    (cleared_ : ∀ fd : Fin NOFILE, fd.val < cleared pc → (s.proc p).ofile fd = none)
    (no : ∀ np i pid, pc ≠ .forking np i pid) : Advance s t :=
  ⟨inv.walks proc ftable before after cleared_, Forks.goes forks proc grown (not_later no),
    .quiet released fun f pos => by rwa [ftable]⟩

/-- A call that fails keeps the files to give them up. -/
theorem Advance.fails (inv : Refs s) (forks : Forks s) {p : Fin n} {fs : List (Fin NFILE)}
    (proc : t.proc = update s.proc p ⟨.closing fs, (s.proc p).ofile⟩)
    (ftable : t.ftable = s.ftable) (released : t.released = s.released)
    (grown : (s.proc p).pc ≠ .embryo) (before : held (s.proc p).pc = fs) : Advance s t := by
  refine ⟨inv.goes proc ftable before.symm ?_ (fun fd low => absurd low (Nat.not_lt_zero _)),
    Forks.goes forks proc grown (not_later (by simp)), .quiet released fun f pos => by rwa [ftable]⟩
  intro f mem
  cases mem

theorem Advance.takes (inv : Refs s) (forks : Forks s) {p : Fin n} {f : Fin NFILE} {pc : Pc n}
    (found : filealloc s = some f) (grown : (s.proc p).pc ≠ .embryo)
    (more : ∀ g, (held pc).count g = (held (s.proc p).pc).count g + if f = g then 1 else 0)
    (unset_ : ∀ g ∈ unset pc, g = f ∨ g ∈ unset (s.proc p).pc) (cleared_ : cleared pc = 0)
    (no : ∀ np i pid, pc ≠ .forking np i pid) : Advance s ((taken s f).goTo p pc) := by
  refine ⟨inv.take found more unset_ cleared_, Forks.goes forks (x := ⟨pc, (s.proc p).ofile⟩) rfl
    grown (not_later no), .quiet rfl ?_⟩
  intro g pos
  by_cases same : g = f
  · subst same
    simp [State.goTo, taken, State.setFile, State.setProc]
  · simpa [State.goTo, taken, State.setFile, State.setProc, update_of_ne same] using pos

theorem openFd_ok (inv : Refs s) (forks : Forks s) {p : Fin n} {f : Fin NFILE} {i : Found}
    {omode : BitVec 32} (at_ : (s.proc p).pc = .opened f i omode) :
    Advance s (openFd s p f i omode) := by
  have grown : (s.proc p).pc ≠ .embryo := by simp [at_]
  unfold openFd
  split
  · exact .fails inv forks rfl rfl rfl grown (by rw [at_]; rfl)
  · rename_i fd found
    have proc : (((s.setOfile p fd (some f)).setFile f (openFile (s.ftable f) i omode)).leave p
        fd.val).proc = update s.proc p ⟨.idle, update (s.proc p).ofile fd (some f)⟩ := by
      simp [State.leave, State.goTo, State.setFile, State.setOfile, State.setProc]
    refine ⟨inv.hands proc (fdalloc_none found) (fun g other => update_of_ne other ..) ?_ ?_ ?_ rfl
      rfl, Forks.goes forks proc grown (not_later (by simp)), .quiet rfl ?_⟩
    · simp [State.leave, State.goTo, State.setFile, State.setOfile, State.setProc, openFile]
    · simp only [State.leave, State.goTo, State.setFile, State.setOfile, State.setProc, update_self,
        openFile]
      split <;> simp
    · intro g
      rw [at_]
      simp [held, List.count_singleton]
    · intro g pos
      by_cases same : g = f
      · subst same
        simpa [State.leave, State.goTo, State.setFile, State.setOfile, State.setProc, openFile]
          using pos
      · simpa [State.leave, State.goTo, State.setFile, State.setOfile, State.setProc,
          update_of_ne same] using pos

/-- Both files of a pipe are set up and still in the hands of the call. -/
theorem pipeFiles_ok (inv : Refs s) {p : Fin n} {f0 f1 : Fin NFILE} {pi : Nat}
    (at_ : (s.proc p).pc = .pair f0 f1)
    (files : u.ftable = update (update s.ftable f0 (pipeFile (s.ftable f0) pi false)) f1
      (pipeFile (update s.ftable f0 (pipeFile (s.ftable f0) pi false) f1) pi true))
    (proc : u.proc = update s.proc p ⟨.closing [f0, f1], (s.proc p).ofile⟩) :
    Refs u ∧ (∀ f, (u.ftable f).ref = (s.ftable f).ref) ∧
      (u.ftable f0).type ≠ .none ∧ (u.ftable f1).type ≠ .none := by
  have refs (f : Fin NFILE) : (u.ftable f).ref = (s.ftable f).ref := by
    rw [files]
    by_cases one : f = f1
    · subst one
      by_cases zero : f = f0
      · subst zero
        simp [pipeFile]
      · simp [pipeFile, update_of_ne zero]
    · rw [update_of_ne one]
      by_cases zero : f = f0
      · subst zero
        simp [pipeFile]
      · rw [update_of_ne zero]
  have one : (u.ftable f1).type ≠ .none := by
    rw [files, update_self]
    simp [pipeFile]
  have zero : (u.ftable f0).type ≠ .none := by
    by_cases same : f0 = f1
    · rwa [same]
    · rw [files, update_of_ne same, update_self]
      simp [pipeFile]
  have others (f : Fin NFILE) (h0 : f ≠ f0) (h1 : f ≠ f1) : u.ftable f = s.ftable f := by
    rw [files, update_of_ne h1, update_of_ne h0]
  have mine {f : Fin NFILE} (mem : f ∈ held (s.proc p).pc) (typed : (u.ftable f).type ≠ .none) :
      Touches s u p f := by
    have pos := held_pos mem
    have le := weight_le s p f
    have count := inv.refs f
    refine ⟨inv.mine pos, fun free => ?_, fun none => absurd none typed⟩
    rw [refs f] at free
    omega
  refine ⟨inv.change proc ?_ ?_ ?_ ?_ (fun fd low => absurd low (Nat.not_lt_zero _)), refs, zero,
    one⟩
  · intro f
    by_cases h0 : f = f0
    · subst h0
      exact .inr (mine (by rw [at_]; exact List.mem_cons_self ..) zero)
    · by_cases h1 : f = f1
      · subst h1
        exact .inr (mine (by rw [at_]; exact List.mem_cons_of_mem _ (List.mem_singleton_self _)) one)
      · exact .inl (others f h0 h1)
  · intro f
    rw [refs f, weight, weight, at_]
    rfl
  · intro f mem
    cases mem
  · intro fd f points
    by_cases h0 : f = f0
    · rwa [h0]
    · by_cases h1 : f = f1
      · rwa [h1]
      · rw [others f h0 h1]
        exact inv.set p fd f points

theorem pipeFds_ok {p : Fin n} {rf wf : Fin NFILE} (copied : Bool)
    (inv : Refs (s.goTo p (.closing [rf, wf]))) (rtyped : (s.ftable rf).type ≠ .none)
    (wtyped : (s.ftable wf).type ≠ .none) :
    Refs (pipeFds s p rf wf copied) ∧ (pipeFds s p rf wf copied).ftable = s.ftable ∧
      (pipeFds s p rf wf copied).released = s.released ∧
      ∃ x : Proc n, (pipeFds s p rf wf copied).proc = update s.proc p x ∧
        ∀ np i pid, x.pc ≠ .forking np i pid := by
  unfold pipeFds
  split
  · exact ⟨inv, rfl, rfl, _, rfl, by simp⟩
  · rename_i fd0 found0
    have empty0 := fdalloc_none found0
    simp only
    split
    · rename_i found1
      refine ⟨Refs.congr inv ?_ rfl, rfl, rfl, ⟨.closing [rf, wf], (s.proc p).ofile⟩, ?_, by simp⟩
      · simp [State.goTo, State.setOfile, State.setProc, ← empty0]
      · simp [State.goTo, State.setOfile, State.setProc, ← empty0]
    · rename_i fd1 found1
      have empty1 := fdalloc_none found1
      have apart : fd1 ≠ fd0 := by
        rintro rfl
        simp [State.setOfile, State.setProc] at empty1
      have empty1 : (s.proc p).ofile fd1 = none := by
        simpa [State.setOfile, State.setProc, update_of_ne apart] using empty1
      split
      · have first : Refs ((s.setOfile p fd0 (some rf)).goTo p (.closing [wf])) := by
          have proc : ((s.setOfile p fd0 (some rf)).goTo p (.closing [wf])).proc =
              update (s.goTo p (.closing [rf, wf])).proc p ⟨.closing [wf],
                update ((s.goTo p (.closing [rf, wf])).proc p).ofile fd0 (some rf)⟩ := by
            simp [State.goTo, State.setOfile, State.setProc]
          refine inv.hands proc ?_ (fun g _ => rfl) rfl rtyped ?_ rfl rfl
          · simpa [State.goTo, State.setProc] using empty0
          · intro g
            simp [State.goTo, State.setProc, held, List.count_cons]
        have proc : (((s.setOfile p fd0 (some rf)).setOfile p fd1 (some wf)).leave p 0).proc =
            update ((s.setOfile p fd0 (some rf)).goTo p (.closing [wf])).proc p ⟨.idle,
              update (((s.setOfile p fd0 (some rf)).goTo p (.closing [wf])).proc p).ofile fd1
                (some wf)⟩ := by
          simp [State.leave, State.goTo, State.setOfile, State.setProc]
        refine ⟨first.hands proc ?_ (fun g _ => rfl) rfl wtyped ?_ rfl rfl, rfl, rfl,
          ⟨.idle, update (update (s.proc p).ofile fd0 (some rf)) fd1 (some wf)⟩, ?_, by simp⟩
        · simpa [State.goTo, State.setOfile, State.setProc, update_of_ne apart] using empty1
        · intro g
          simp [State.goTo, State.setOfile, State.setProc, held, List.count_cons]
        · simp [State.leave, State.goTo, State.setOfile, State.setProc]
      · have back : update (update (update (update (s.proc p).ofile fd0 (some rf)) fd1 (some wf))
            fd0 none) fd1 none = (s.proc p).ofile := by
          funext fd
          by_cases h1 : fd = fd1
          · subst h1
            rw [update_self, empty1]
          · rw [update_of_ne h1]
            by_cases h0 : fd = fd0
            · subst h0
              rw [update_self, empty0]
            · rw [update_of_ne h0, update_of_ne h1, update_of_ne h0]
        refine ⟨Refs.congr inv ?_ rfl, rfl, rfl, ⟨.closing [rf, wf], (s.proc p).ofile⟩, ?_, by simp⟩
        · simp [State.goTo, State.setOfile, State.setProc, back]
        · simp [State.goTo, State.setOfile, State.setProc, back]

theorem pipePair_ok (inv : Refs s) (forks : Forks s) {p : Fin n} {f0 f1 : Fin NFILE} {pi : Nat}
    {copied : Bool} (at_ : (s.proc p).pc = .pair f0 f1) :
    Advance s (pipeFds ((s.setFile f0 (pipeFile (s.ftable f0) pi false)).setFile f1
      (pipeFile ((s.setFile f0 (pipeFile (s.ftable f0) pi false)).ftable f1) pi true)) p f0 f1
      copied) := by
  obtain ⟨refs, counts, zero, one⟩ := pipeFiles_ok (u := ((s.setFile f0 (pipeFile (s.ftable f0) pi
    false)).setFile f1 (pipeFile ((s.setFile f0 (pipeFile (s.ftable f0) pi false)).ftable f1) pi
    true)).goTo p (.closing [f0, f1])) inv at_ rfl rfl
  obtain ⟨after, ftable, released, x, proc, no⟩ := pipeFds_ok copied refs zero one
  refine ⟨after, Forks.goes forks proc (by simp [at_]) (not_later no), .quiet released ?_⟩
  intro f pos
  rw [ftable]
  exact lt_of_lt_of_eq pos (counts f).symm

theorem filedup_ok {f : Fin NFILE} (h : filedup s f = .ok t) :
    t = s.setFile f { s.ftable f with ref := (s.ftable f).ref + 1 } := by
  unfold filedup at h
  split at h
  · cases h
  · exact (Except.ok.inj h).symm

theorem raised {f : Fin NFILE} (ftable : t.ftable =
    update s.ftable f { s.ftable f with ref := (s.ftable f).ref + 1 }) :
    ∀ g, 0 < (s.ftable g).ref → 0 < (t.ftable g).ref := by
  intro g pos
  rw [ftable]
  by_cases same : g = f
  · subst same
    simp
  · rwa [update_of_ne same]

/-- A fork under way looks after one child only, which is no other's. -/
theorem Forks.elsewhere (forks : Forks s) {p np q np' : Fin n} {i j : Nat} {pid pid' : Int}
    (at_ : (s.proc p).pc = .forking np i pid) (also : (s.proc q).pc = .forking np' j pid')
    (other : q ≠ p) : np' ≠ np ∧ np' ≠ p := by
  constructor
  · rintro rfl
    exact other ((forks p np' i pid at_).unique q j pid' also)
  · rintro rfl
    have embryo := (forks q np' j pid' also).embryo
    rw [at_] at embryo
    cases embryo

theorem Filling.apart {p np : Fin n} {i j : Nat} {pid : Int} (filling : Filling s p np i)
    (at_ : (s.proc p).pc = .forking np j pid) : np ≠ p := by
  rintro rfl
  have embryo := filling.embryo
  rw [at_] at embryo
  cases embryo

theorem forkOne_ok (inv : Refs s) (forks : Forks s) {p np : Fin n} {i : Nat} {pid : Int}
    {inside : i < NOFILE} {f : Fin NFILE} (at_ : (s.proc p).pc = .forking np i pid)
    (points : (s.proc p).ofile ⟨i, inside⟩ = some f)
    (ftable : t.ftable = update s.ftable f { s.ftable f with ref := (s.ftable f).ref + 1 })
    (proc : t.proc = update
      (update s.proc np ⟨(s.proc np).pc, update (s.proc np).ofile ⟨i, inside⟩ (some f)⟩) p
      ⟨.forking np (i + 1) pid, (s.proc p).ofile⟩)
    (released : t.released = s.released) : Advance s t := by
  have filling := forks p np i pid at_
  have apart := filling.apart at_
  have child : t.proc np = ⟨.embryo, update (s.proc np).ofile ⟨i, inside⟩ (some f)⟩ := by
    rw [proc, update_of_ne apart, update_self, filling.embryo]
  have parent : t.proc p = ⟨.forking np (i + 1) pid, (s.proc p).ofile⟩ := by rw [proc, update_self]
  have others (q : Fin n) (hp : q ≠ p) (hnp : q ≠ np) : t.proc q = s.proc q := by
    rw [proc, update_of_ne hp, update_of_ne hnp]
  refine ⟨?_, ?_, .quiet released (raised ftable)⟩
  · -- first the parent goes on, then the child gets its descriptor
    have first : Refs (s.goTo p (.forking np (i + 1) pid)) :=
      inv.walks rfl rfl (by rw [at_]; rfl) rfl fun fd low => absurd low (Nat.not_lt_zero _)
    have before : (s.goTo p (.forking np (i + 1) pid)).proc np = s.proc np :=
      update_of_ne apart ..
    have then_ : t.proc = update (s.goTo p (.forking np (i + 1) pid)).proc np
        ⟨.embryo, update ((s.goTo p (.forking np (i + 1) pid)).proc np).ofile ⟨i, inside⟩
          (some f)⟩ := by
      rw [proc, before, filling.embryo]
      exact update_comm apart ..
    have still : ((s.goTo p (.forking np (i + 1) pid)).proc p).ofile ⟨i, inside⟩ = some f := by
      simpa [State.goTo, State.setProc] using points
    refine first.dups then_ ftable ?_ still ?_ rfl rfl
    · rw [before]
      exact filling.empty ⟨i, inside⟩ le_rfl
    · rw [before, filling.embryo]
      rfl
  · have back (q np' : Fin n) (j : Nat) (pid' : Int) (is : (t.proc q).pc = .forking np' j pid')
        (hp : q ≠ p) : q ≠ np ∧ (s.proc q).pc = .forking np' j pid' := by
      have hnp : q ≠ np := by
        rintro rfl
        rw [child] at is
        cases is
      rw [others q hp hnp] at is
      exact ⟨hnp, is⟩
    intro q np' j pid' is
    by_cases hp : q = p
    · subst hp
      rw [parent] at is
      cases is
      refine ⟨by rw [child], ?_, ?_⟩
      · intro fd high
        rw [child]
        have past : fd ≠ ⟨i, inside⟩ := by
          rintro rfl
          simp only at high
          omega
        simp only [update_of_ne past]
        exact filling.empty fd (by omega)
      · intro r k pid'' also
        by_contra hr
        exact hr (filling.unique r k pid'' (back r np k pid'' also hr).2)
    · obtain ⟨hnp, old⟩ := back q np' j pid' is hp
      obtain ⟨h1, h2⟩ := Forks.elsewhere forks at_ old hp
      have old' := forks q np' j pid' old
      refine ⟨by rw [others np' h2 h1]; exact old'.embryo, ?_, ?_⟩
      · rw [others np' h2 h1]
        exact old'.empty
      · intro r k pid'' also
        by_cases hr : r = p
        · subst hr
          rw [parent] at also
          cases also
          exact absurd rfl h1
        · exact old'.unique r k pid'' (back r np' k pid'' also hr).2

theorem forkEnd_ok (inv : Refs s) (forks : Forks s) {p np : Fin n} {i : Nat} {pid : Int}
    (at_ : (s.proc p).pc = .forking np i pid) (ftable : t.ftable = s.ftable)
    (proc : t.proc = update (update s.proc np ⟨.idle, (s.proc np).ofile⟩) p
      ⟨.idle, (s.proc p).ofile⟩)
    (released : t.released = s.released) : Advance s t := by
  have filling := forks p np i pid at_
  have apart := filling.apart at_
  have others (q : Fin n) (hp : q ≠ p) (hnp : q ≠ np) : t.proc q = s.proc q := by
    rw [proc, update_of_ne hp, update_of_ne hnp]
  refine ⟨?_, ?_, .quiet released fun f pos => by rwa [ftable]⟩
  · have first : Refs (s.goTo np .idle) :=
      inv.walks rfl rfl (by rw [filling.embryo]; rfl) rfl fun fd low =>
        absurd low (Nat.not_lt_zero _)
    have before : (s.goTo np .idle).proc p = s.proc p := update_of_ne (Ne.symm apart) ..
    have then_ : t.proc = update (s.goTo np .idle).proc p
        ⟨.idle, ((s.goTo np .idle).proc p).ofile⟩ := by
      rw [proc, before]
      rfl
    exact first.walks then_ ftable (by rw [before, at_]; rfl) rfl
      fun fd low => absurd low (Nat.not_lt_zero _)
  · have idle (q : Fin n) (here : q = p ∨ q = np) : (t.proc q).pc = .idle := by
      rcases here with rfl | rfl
      · rw [proc, update_self]
      · rw [proc, update_of_ne apart, update_self]
    have back (q np' : Fin n) (j : Nat) (pid' : Int) (is : (t.proc q).pc = .forking np' j pid') :
        q ≠ p ∧ (s.proc q).pc = .forking np' j pid' := by
      have hp : q ≠ p := by
        intro here
        rw [idle q (.inl here)] at is
        cases is
      have hnp : q ≠ np := by
        intro here
        rw [idle q (.inr here)] at is
        cases is
      rw [others q hp hnp] at is
      exact ⟨hp, is⟩
    intro q np' j pid' is
    obtain ⟨hp, old⟩ := back q np' j pid' is
    obtain ⟨h1, h2⟩ := Forks.elsewhere forks at_ old hp
    have old' := forks q np' j pid' old
    refine ⟨by rw [others np' h2 h1]; exact old'.embryo, ?_, ?_⟩
    · rw [others np' h2 h1]
      exact old'.empty
    · intro r k pid'' also
      exact old'.unique r k pid'' (back r np' k pid'' also).2

theorem forkFile_ok (inv : Refs s) (forks : Forks s) {p np : Fin n} {i : Nat} {pid : Int}
    (at_ : (s.proc p).pc = .forking np i pid) (h : forkFile s p np i pid = .ok t) :
    Advance s t := by
  have filling := forks p np i pid at_
  have grown : (s.proc p).pc ≠ .embryo := by simp [at_]
  have apart := filling.apart at_
  unfold forkFile at h
  split at h
  · rename_i inside
    split at h
    · cases h
      refine ⟨inv.walks rfl rfl (by rw [at_]; rfl) rfl fun fd low => absurd low (Nat.not_lt_zero _),
        Forks.goes forks (x := ⟨.forking np (i + 1) pid, (s.proc p).ofile⟩) rfl grown ?_,
        .quiet rfl fun f pos => pos⟩
      intro np' j pid' same
      cases same
      exact ⟨i, pid, at_, Nat.le_succ i⟩
    · rename_i f points
      obtain ⟨r, dup, same⟩ := bind_eq_ok.mp h
      obtain rfl := filedup_ok dup
      cases same
      exact forkOne_ok inv forks at_ points rfl
        (by simp [State.goTo, State.setOfile, State.setFile, State.setProc, Ne.symm apart]) rfl
  · cases h
    exact forkEnd_ok inv forks at_ rfl
      (by simp [State.leave, State.goTo, State.setProc, Ne.symm apart]) rfl

theorem forkStart_ok (inv : Refs s) (forks : Forks s) {p np : Fin n} {pid : Int}
    (at_ : (s.proc p).pc = .idle) (absent : (s.proc np).pc = .absent) :
    Advance s ((s.goTo np .embryo).goTo p (.forking np 0 pid)) := by
  have apart : np ≠ p := by
    rintro rfl
    rw [at_] at absent
    cases absent
  have before : (s.goTo np .embryo).proc p = s.proc p := update_of_ne (Ne.symm apart) ..
  have empty (fd : Fin NOFILE) : (s.proc np).ofile fd = none :=
    inv.cleared np fd (by rw [absent]; exact fd.isLt)
  have others (q : Fin n) (hp : q ≠ p) (hnp : q ≠ np) :
      ((s.goTo np .embryo).goTo p (.forking np 0 pid)).proc q = s.proc q := by
    simp [State.goTo, State.setProc, update_of_ne hp, update_of_ne hnp]
  have child : ((s.goTo np .embryo).goTo p (.forking np 0 pid)).proc np =
      ⟨.embryo, (s.proc np).ofile⟩ := by
    simp [State.goTo, State.setProc, update_of_ne apart]
  have parent : ((s.goTo np .embryo).goTo p (.forking np 0 pid)).proc p =
      ⟨.forking np 0 pid, (s.proc p).ofile⟩ := by
    simp [State.goTo, State.setProc, Ne.symm apart]
  refine ⟨?_, ?_, .quiet rfl fun f pos => pos⟩
  · have first : Refs (s.goTo np .embryo) :=
      inv.walks rfl rfl (by rw [absent]; rfl) rfl fun fd low => absurd low (Nat.not_lt_zero _)
    exact first.walks rfl rfl (by rw [before, at_]; rfl) rfl
      fun fd low => absurd low (Nat.not_lt_zero _)
  · -- whoever else forks looks after another child, which exists already
    have back (q np' : Fin n) (j : Nat) (pid' : Int) (hp : q ≠ p)
        (is : (((s.goTo np .embryo).goTo p (.forking np 0 pid)).proc q).pc = .forking np' j pid') :
        (s.proc q).pc = .forking np' j pid' ∧ np' ≠ np ∧ np' ≠ p := by
      have hnp : q ≠ np := by
        rintro rfl
        rw [child] at is
        cases is
      rw [others q hp hnp] at is
      have embryo := (forks q np' j pid' is).embryo
      refine ⟨is, ?_, ?_⟩
      · rintro rfl
        rw [absent] at embryo
        cases embryo
      · rintro rfl
        rw [at_] at embryo
        cases embryo
    intro q np' j pid' is
    by_cases hp : q = p
    · subst hp
      rw [parent] at is
      cases is
      refine ⟨by rw [child], fun fd _ => by rw [child]; exact empty fd, ?_⟩
      intro r k pid'' also
      by_contra hr
      exact (back r np k pid'' hr also).2.1 rfl
    · obtain ⟨old, h1, h2⟩ := back q np' j pid' hp is
      have old' := forks q np' j pid' old
      refine ⟨by rw [others np' h2 h1]; exact old'.embryo, ?_, ?_⟩
      · rw [others np' h2 h1]
        exact old'.empty
      · intro r k pid'' also
        by_cases hr : r = p
        · subst hr
          rw [parent] at also
          cases also
          exact absurd rfl h1
        · exact old'.unique r k pid'' (back r np' k pid'' hr also).1

/-- A reference of the process goes, of a descriptor or of a call that has failed. -/
theorem Advance.drops (inv : Refs s) (forks : Forks s) {p : Fin n} {x : Proc n} {f : Fin NFILE}
    (close : fileclose u f = .ok t) (ftable : u.ftable = s.ftable)
    (released : u.released = s.released) {v : State n} (proc : v.proc = update s.proc p x)
    (ftable' : v.ftable = t.ftable) (released' : v.released = t.released)
    (less : ∀ g, weight g x + (if f = g then 1 else 0) = weight g (s.proc p))
    (unset_ : unset x.pc = [])
    (slots_ : ∀ fd g, x.ofile fd = some g → (s.proc p).ofile fd = some g)
    (cleared_ : ∀ fd : Fin NOFILE, fd.val < cleared x.pc → x.ofile fd = none)
    (grown : (s.proc p).pc ≠ .embryo) (no : ∀ np i pid, x.pc ≠ .forking np i pid) :
    Advance s v := by
  obtain ⟨drop, -, given⟩ := fileclose_ok close
  rw [ftable, ← ftable'] at drop
  rw [← ftable', ftable, ← released', released] at given
  exact ⟨inv.drops proc drop less unset_ slots_ cleared_, Forks.goes forks proc grown (not_later no),
    .closes drop given⟩

/-- The weights of a process that gives up a descriptor. -/
theorem weight_closed {x : Proc n} {pc : Pc n} {fd : Fin NOFILE} {f : Fin NFILE}
    (points : x.ofile fd = some f) (before : held x.pc = []) (after : held pc = []) (g : Fin NFILE) :
    weight g (⟨pc, update x.ofile fd none⟩ : Proc n) + (if f = g then 1 else 0) = weight g x := by
  have slot := slots_update x.ofile fd none g
  rw [points, if_neg (by simp : ¬ (none : Option (Fin NFILE)) = some g)] at slot
  simp only [Option.some.injEq] at slot
  simp only [weight, before, after, List.count_nil]
  omega

theorem slots_closed {o : Fin NOFILE → Option (Fin NFILE)} {fd fd' : Fin NOFILE} {g : Fin NFILE}
    (points : update o fd none fd' = some g) : o fd' = some g := by
  by_cases same : fd' = fd
  · subst same
    simp at points
  · rwa [update_of_ne same] at points

theorem exitFile_ok (inv : Refs s) (forks : Forks s) {p : Fin n} {fd : Nat}
    (at_ : (s.proc p).pc = .exiting fd) (h : exitFile s p fd = .ok t) : Advance s t := by
  have grown : (s.proc p).pc ≠ .embryo := by simp [at_]
  have closed (k : Fin NOFILE) (low : k.val < fd) : (s.proc p).ofile k = none :=
    inv.cleared p k (by rwa [at_])
  have before : held (s.proc p).pc = [] := by rw [at_]; rfl
  unfold exitFile at h
  split at h
  · rename_i inside
    have next (o : Fin NOFILE → Option (Fin NFILE)) (low : ∀ k : Fin NOFILE, k.val < fd → o k = none)
        (here : o ⟨fd, inside⟩ = none) (k : Fin NOFILE) (less : k.val < fd + 1) : o k = none := by
      rcases Nat.lt_succ_iff_lt_or_eq.mp less with less | same
      · exact low k less
      · have is : k = ⟨fd, inside⟩ := Fin.ext same
        rwa [is]
    split at h
    · rename_i none
      cases h
      exact .walks inv forks rfl rfl rfl grown before rfl (next _ closed none) (by simp)
    · rename_i f points
      obtain ⟨r, close, same⟩ := bind_eq_ok.mp h
      cases same
      obtain ⟨-, proc, -⟩ := fileclose_ok close
      refine .drops inv forks (p := p) (x := ⟨.exiting (fd + 1), update (s.proc p).ofile ⟨fd, inside⟩
        none⟩) close rfl rfl ?_ rfl rfl (weight_closed points before rfl) rfl
        (fun k g => slots_closed) ?_ grown (by simp)
      · simp [State.goTo, State.setOfile, State.setProc, proc]
      · refine next _ ?_ (update_self ..)
        intro k low
        by_cases is : k = ⟨fd, inside⟩
        · simp only [is, update_self]
        · simp only [update_of_ne is]
          exact closed k low
  · rename_i past
    cases h
    refine .walks inv forks rfl rfl rfl grown before rfl ?_ (by simp)
    intro k _
    exact closed k (by omega)

theorem go_ok (inv : Refs s) (forks : Forks s) {p : Fin n} {page : Option Nat} {copied : Bool}
    (h : go s p page copied = .ok t) : Advance s t := by
  unfold go at h
  split at h
  · rename_i i omode at_
    have grown : (s.proc p).pc ≠ .embryo := by simp [at_]
    split at h
    · cases h
      exact .walks inv forks rfl rfl rfl grown (by rw [at_]; rfl) rfl
        (fun fd low => absurd low (Nat.not_lt_zero _)) (by simp)
    · rename_i f found
      cases h
      refine .takes inv forks found grown ?_ (fun g mem => .inl (List.mem_singleton.mp mem)) rfl
        (by simp)
      intro g
      rw [at_]
      simp [held, List.count_singleton]
  · rename_i f i omode at_
    cases h
    exact openFd_ok inv forks at_
  · rename_i at_
    have grown : (s.proc p).pc ≠ .embryo := by simp [at_]
    split at h
    · cases h
      exact .walks inv forks rfl rfl rfl grown (by rw [at_]; rfl) rfl
        (fun fd low => absurd low (Nat.not_lt_zero _)) (by simp)
    · rename_i f found
      cases h
      refine .takes inv forks found grown ?_ (fun g mem => .inl (List.mem_singleton.mp mem)) rfl
        (by simp)
      intro g
      rw [at_]
      simp [held, List.count_singleton]
  · rename_i f0 at_
    have grown : (s.proc p).pc ≠ .embryo := by simp [at_]
    split at h
    · cases h
      exact .fails inv forks rfl rfl rfl grown (by rw [at_]; rfl)
    · rename_i f1 found
      cases h
      refine .takes inv forks found grown ?_ ?_ rfl (by simp)
      · intro g
        rw [at_]
        simp only [held, List.count_cons, List.count_nil, beq_iff_eq]
        omega
      · intro g mem
        rw [at_]
        rcases List.mem_cons.mp mem with rfl | last
        · exact .inr (List.mem_singleton_self _)
        · exact .inl (List.mem_singleton.mp last)
  · rename_i f0 f1 at_
    have grown : (s.proc p).pc ≠ .embryo := by simp [at_]
    split at h
    · cases h
      exact .fails inv forks rfl rfl rfl grown (by rw [at_]; rfl)
    · rename_i pi
      cases h
      exact pipePair_ok inv forks at_
  · rename_i at_
    cases h
    exact .walks inv forks rfl rfl rfl (by simp [at_]) (by rw [at_]; rfl) rfl
      (fun fd low => absurd low (Nat.not_lt_zero _)) (by simp)
  · rename_i f fs at_
    obtain ⟨r, close, same⟩ := bind_eq_ok.mp h
    cases same
    obtain ⟨-, proc, -⟩ := fileclose_ok close
    refine .drops inv forks (p := p) (x := ⟨.closing fs, (s.proc p).ofile⟩) close rfl rfl ?_ rfl rfl
      ?_ rfl (fun k g points => points) (fun fd low => absurd low (Nat.not_lt_zero _))
      (by simp [at_])
      (by simp)
    · simp [State.goTo, State.setProc, proc]
    · intro g
      simp only [weight, at_, held, List.count_cons, beq_iff_eq]
      omega
  · rename_i np i pid at_
    exact forkFile_ok inv forks at_ h
  · rename_i fd at_
    exact exitFile_ok inv forks at_ h
  · cases h
  · cases h
  · cases h
  · cases h

/-- A file that a process refers to is there. -/
theorem Refs.there (inv : Refs s) {p : Fin n} {f : Fin NFILE} (pos : 0 < weight f (s.proc p)) :
    0 < (s.ftable f).ref := by
  have := inv.refs f
  have := weight_le s p f
  omega

theorem call_ok (inv : Refs s) (forks : Forks s) {e : Event n} (at_ : (s.proc e.proc).pc = .idle)
    (h : call s e = .ok t) : Advance s t := by
  have grown : (s.proc e.proc).pc ≠ .embryo := by simp [at_]
  have before : held (s.proc e.proc).pc = [] := by rw [at_]; rfl
  have leaves (r : Int) : Advance s (s.leave e.proc r) :=
    .walks inv forks rfl rfl rfl grown before rfl (fun fd low => absurd low (Nat.not_lt_zero _))
      (by simp)
  cases e with
  | «open» p i omode =>
    cases i with
    | none =>
      cases h
      exact leaves (-1)
    | some i =>
      cases h
      exact .walks inv forks rfl rfl rfl grown before rfl
        (fun fd low => absurd low (Nat.not_lt_zero _)) (by simp)
  | pipe p =>
    cases h
    exact .walks inv forks rfl rfl rfl grown before rfl
      (fun fd low => absurd low (Nat.not_lt_zero _)) (by simp)
  | dup p fd =>
    simp only [call] at h
    split at h
    · cases h
      exact leaves (-1)
    · rename_i f points
      split at h
      · cases h
        exact leaves (-1)
      · rename_i fd' found
        obtain ⟨r, dup, same⟩ := bind_eq_ok.mp h
        obtain rfl := filedup_ok dup
        cases same
        have proc : (((s.setOfile p fd' (some f)).setFile f { (s.setOfile p fd' (some f)).ftable f
            with ref := ((s.setOfile p fd' (some f)).ftable f).ref + 1 }).leave p fd'.val).proc =
            update s.proc p ⟨.idle, update (s.proc p).ofile fd' (some f)⟩ := by
          simp [State.leave, State.goTo, State.setFile, State.setOfile, State.setProc]
        exact ⟨inv.dups proc rfl (fdalloc_none found) points before rfl rfl,
          Forks.goes forks proc grown (not_later (by simp)), .quiet rfl (raised rfl)⟩
  | close p fd =>
    simp only [call] at h
    split at h
    · cases h
      exact leaves (-1)
    · rename_i f points
      obtain ⟨r, close, same⟩ := bind_eq_ok.mp h
      cases same
      obtain ⟨-, proc, -⟩ := fileclose_ok close
      refine .drops inv forks (p := p) (x := ⟨.idle, update (s.proc p).ofile fd none⟩) close rfl rfl
        ?_ rfl rfl (weight_closed points before rfl) rfl (fun k g => slots_closed)
        (fun k low => absurd low (Nat.not_lt_zero _)) grown (by simp)
      simp [State.leave, State.goTo, State.setOfile, State.setProc, proc]
  | fork p memory pid =>
    simp only [call] at h
    split at h
    · cases h
      exact leaves (-1)
    · rename_i np found
      split at h
      · cases h
        exact forkStart_ok inv forks at_ (by simpa using List.find?_some found)
      · cases h
        exact leaves (-1)
  | exit p =>
    cases h
    exact .walks inv forks rfl rfl rfl grown before rfl
      (fun fd low => absurd low (Nat.not_lt_zero _)) (by simp)
  | go p page copied => cases h
  | freed p => cases h

theorem step_ok (inv : Refs s) (forks : Forks s) {e : Event n} (h : step s e = .ok t) :
    Advance s t := by
  have calls (idle : (if (s.proc e.proc).pc = .idle then call s e else .error .disabled) = .ok t) :
      Advance s t := by
    split at idle
    · rename_i at_
      exact call_ok inv forks at_ idle
    · cases idle
  cases e with
  | go p page copied => exact go_ok inv forks h
  | freed p =>
    simp only [step] at h
    split at h
    · rename_i zombie
      cases h
      refine .walks inv forks rfl rfl rfl (by simp [zombie]) (by rw [zombie]; rfl) rfl ?_ (by simp)
      intro fd _
      exact inv.cleared p fd (by rw [zombie]; exact fd.isLt)
    · cases h
  | «open» p i omode => exact calls h
  | pipe p => exact calls h
  | dup p fd => exact calls h
  | close p fd => exact calls h
  | fork p memory pid => exact calls h
  | exit p => exact calls h

theorem filedup_fine {f : Fin NFILE} (pos : 0 < (s.ftable f).ref) : filedup s f ≠ .error .panic := by
  rw [filedup, if_neg (by omega)]
  simp

theorem fileclose_fine {f : Fin NFILE} (pos : 0 < (s.ftable f).ref) :
    fileclose s f ≠ .error .panic := by
  simp only [fileclose]
  rw [if_neg (by omega)]
  split <;> simp

theorem Refs.pointed (inv : Refs s) {p : Fin n} {fd : Fin NOFILE} {f : Fin NFILE}
    (points : (s.proc p).ofile fd = some f) : 0 < (s.ftable f).ref :=
  Refs.there inv (Nat.add_pos_left (slots_pos points) _)

theorem go_fine (inv : Refs s) {p : Fin n} {page : Option Nat} {copied : Bool} :
    go s p page copied ≠ .error .panic := by
  unfold go
  split
  · split <;> simp
  · simp
  · split <;> simp
  · split <;> simp
  · split <;> simp
  · simp
  · rename_i f fs at_
    have pos : 0 < (s.ftable f).ref := by
      refine Refs.there inv (held_pos (x := s.proc p) ?_)
      rw [at_]
      exact List.mem_cons_self ..
    exact bind_ne_error (fileclose_fine pos) (by simp [pure, Except.pure])
  · unfold forkFile
    split
    · split
      · simp
      · rename_i f points
        exact bind_ne_error (filedup_fine (Refs.pointed inv points)) (by simp [pure, Except.pure])
    · simp
  · unfold exitFile
    split
    · split
      · simp
      · rename_i f points
        exact bind_ne_error (fileclose_fine (Refs.pointed inv points)) (by simp [pure, Except.pure])
    · simp
  · simp
  · simp
  · simp
  · simp

theorem call_fine (inv : Refs s) (e : Event n) : call s e ≠ .error .panic := by
  cases e with
  | «open» p i omode => cases i <;> simp [call]
  | pipe p => simp [call]
  | dup p fd =>
    simp only [call]
    split
    · simp
    · rename_i f points
      split
      · simp
      · exact bind_ne_error (filedup_fine (Refs.pointed inv points)) (by simp [pure, Except.pure])
  | close p fd =>
    simp only [call]
    split
    · simp
    · rename_i f points
      exact bind_ne_error (fileclose_fine (Refs.pointed inv points)) (by simp [pure, Except.pure])
  | fork p memory pid =>
    simp only [call]
    split
    · simp
    · split <;> simp
  | exit p => simp [call]
  | go p page copied => simp [call]
  | freed p => simp [call]

theorem step_fine (inv : Refs s) (e : Event n) : step s e ≠ .error .panic := by
  have calls : (if (s.proc e.proc).pc = .idle then call s e else .error .disabled) ≠
      .error .panic := by
    split
    · exact call_fine inv e
    · simp
  cases e with
  | go p page copied => exact go_fine inv
  | freed p =>
    simp only [step]
    split <;> simp
  | «open» p i omode => exact calls
  | pipe p => exact calls
  | dup p fd => exact calls
  | close p fd => exact calls
  | fork p memory pid => exact calls
  | exit p => exact calls

theorem refs_boot (init : Fin n) : Refs (boot init) := by
  have nothing (p : Fin n) : held ((boot init).proc p).pc = [] := by
    simp only [boot]
    split <;> rfl
  constructor
  · intro f
    simp only [users, weight, nothing, List.count_nil]
    simp [boot, slots]
  · exact fun f _ => rfl
  · intro p f mem
    have := unset_held mem
    simp [nothing p] at this
  · intro p fd f points
    cases points
  · exact fun p fd _ => rfl

theorem forks_boot (init : Fin n) : Forks (boot init) := by
  intro p np i pid is
  simp only [boot] at is
  split at is <;> cases is

theorem reachable_ok (init : Fin n) {es : List (Event n)} (h : run step (boot init) es = .ok s) :
    Refs s ∧ Forks s := by
  have keep (s : State n) (e : Event n) (t : State n) (inv : Refs s ∧ Forks s)
      (h : step s e = .ok t) : Refs t ∧ Forks t :=
    ⟨(step_ok inv.1 inv.2 h).refs, (step_ok inv.1 inv.2 h).forks⟩
  exact run_invariant_all keep ⟨refs_boot init, forks_boot init⟩ h

/-- Whatever the processes do, a file's `ref` counts the descriptors that point to it and the
references that calls hold, hence between calls the descriptors alone. No step panics, and one
calls `pipeclose` or `iput` for a file exactly when the last of these references to a file goes that
is set up. -/
theorem refs_count_slots (n : Nat) (init : Fin n) (es : List (Event n)) {s : State n}
    (h : run step (boot init) es = .ok s) :
    (∀ f, (s.ftable f).ref = users s f) ∧
    ((∀ p, held (s.proc p).pc = []) →
      ∀ f, (s.ftable f).ref = ∑ p, slots f (s.proc p).ofile) ∧
    ∀ e, step s e ≠ .error .panic ∧ ∀ t, step s e = .ok t → ∀ f,
      (Calls s t f ↔ (s.ftable f).type ≠ .none ∧ 0 < users s f ∧ users t f = 0) := by
  obtain ⟨inv, forks⟩ := reachable_ok init h
  refine ⟨inv.refs, ?_, fun e => ⟨step_fine inv e, ?_⟩⟩
  · intro quiet f
    rw [inv.refs f, users]
    refine Finset.sum_congr rfl fun p _ => ?_
    rw [weight, quiet p, List.count_nil, Nat.add_zero]
  · intro t next f
    have advance := step_ok inv forks next
    have releases := advance.releases f
    rw [inv.refs f, advance.refs.refs f] at releases
    exact releases

/-- A process opens a file as often as it has descriptors. -/
def filled (p : Fin n) : List (Event n) :=
  (List.replicate NOFILE [.open p (some ⟨1, false⟩) 0, .go p none true, .go p none true]).flatten

/-- Then it makes a pipe, for which it has no descriptor left. -/
def unplaced (p : Fin n) : List (Event n) :=
  filled p ++ [.pipe p, .go p none true, .go p none true, .go p (some 0) true]

theorem refs_count_slots_filled : ∃ s, run step (boot (0 : Fin 1)) (filled 0) = .ok s ∧
    ∀ f, (s.ftable f).ref = ∑ p, slots f (s.proc p).ofile := by
  have ran : Yields (run step (boot (0 : Fin 1)) (filled 0)) fun s => (s.proc 0).pc = .idle := by
    decide +kernel
  obtain ⟨s, h, idle⟩ := ran
  refine ⟨s, h, (refs_count_slots 1 0 (filled 0) h).2.1 fun p => ?_⟩
  obtain rfl : p = 0 := Subsingleton.elim _ _
  rw [idle]
  rfl

/-- Both ends of the pipe are closed, though no descriptor has ever pointed to them. -/
theorem closed_without_slot : ∃ s t, run step (boot (0 : Fin 1)) (unplaced 0) = .ok s ∧
    step s (.go 0 none true) = .ok t ∧ ∃ f, Calls s t f ∧
      ∀ p fd, (s.proc p).ofile fd ≠ some f := by
  have ran : Yields (run step (boot (0 : Fin 1)) (unplaced 0)) fun s =>
      Yields (step s (.go 0 none true)) fun t => (s.ftable 16).last = some (.pipeclose 0 false) ∧
        t.released = [(16, .pipeclose 0 false)] ∧ s.released = [] ∧
        ∀ p fd, (s.proc p).ofile fd ≠ some 16 := by
    decide +kernel
  obtain ⟨s, h, t, next, last, after, before, none⟩ := ran
  exact ⟨s, t, h, next, 16, ⟨_, last, by rw [after, before]⟩, none⟩

end FileLifetimes
