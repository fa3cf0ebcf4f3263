import Xv6.InodeReferences

/-!
# References to open files

An entry of the file table counts the descriptors that point to it, and the
references that the call under way holds. The last descriptor to go gives the
inode back.
-/

namespace FileReferences
open DirectoryCalls Function InodeReferences LinkCounts Outcomes

variable {n m : Nat} {w : Allotment n}

/-- The descriptors of a process that point to file `f`. -/
def slots (f : Fin NFILE) (x : Proc n) : Nat := ∑ fd, if x.ofile fd = some f then 1 else 0

def holders (proc : Fin (m + 1) → Proc n) (f : Fin NFILE) : Nat := ∑ p, slots f (proc p)

/-- The file table matches the descriptors; the call under way holds the references
of the list `loose`. -/
structure Files (ftable : Fin NFILE → File n) (proc : Fin (m + 1) → Proc n)
    (loose : List (Fin NFILE)) : Prop where
  refs : ∀ f, (ftable f).ref = holders proc f + loose.count f
  closed : ∀ f, (ftable f).ref = 0 ↔ (ftable f).type = .none

/-- A process that does not exist has no files. -/
def Gone (proc : Fin (m + 1) → Proc n) : Prop :=
  ∀ p, (proc p).cwd = none → ∀ fd, (proc p).ofile fd = none

theorem users_setFile (s : State n m) (f : Fin NFILE) (x : File n) (i : Inum n) :
    users (s.setFile f x).ftable s.proc i + fileUse i (s.ftable f)
      = users s.ftable s.proc i + fileUse i x := by
  have change := Tallies.sum_update (fileUse i) s.ftable f x
  simp only [users, State.setFile]
  omega

theorem users_setProc (s : State n m) (p : Fin (m + 1)) (x : Proc n) (i : Inum n) :
    users s.ftable (s.setProc p x).proc i + cwdUse i (s.proc p)
      = users s.ftable s.proc i + cwdUse i x := by
  have change := Tallies.sum_update (cwdUse i) s.proc p x
  simp only [users, State.setProc]
  omega

theorem users_setOfile (s : State n m) (p : Fin (m + 1)) (fd : Fin NOFILE)
    (v : Option (Fin NFILE)) :
    users s.ftable (s.setOfile p fd v).proc = users s.ftable s.proc := by
  funext i
  have change := users_setProc s p { s.proc p with ofile := update (s.proc p).ofile fd v } i
  simp only [State.setOfile, cwdUse] at change ⊢
  omega

theorem slots_update (x : Proc n) (fd : Fin NOFILE) (v : Option (Fin NFILE)) (f : Fin NFILE) :
    slots f { x with ofile := update x.ofile fd v } + (if x.ofile fd = some f then 1 else 0)
      = slots f x + if v = some f then 1 else 0 :=
  Tallies.sum_update (fun v => if v = some f then 1 else 0) x.ofile fd v

theorem holders_setProc (s : State n m) (p : Fin (m + 1)) (x : Proc n) (f : Fin NFILE) :
    holders (s.setProc p x).proc f + slots f (s.proc p) = holders s.proc f + slots f x :=
  Tallies.sum_update (slots f) s.proc p x

theorem holders_setOfile (s : State n m) (p : Fin (m + 1)) (fd : Fin NOFILE)
    (v : Option (Fin NFILE)) (f : Fin NFILE) :
    holders (s.setOfile p fd v).proc f + (if (s.proc p).ofile fd = some f then 1 else 0)
      = holders s.proc f + if v = some f then 1 else 0 := by
  have outer := holders_setProc s p { s.proc p with ofile := update (s.proc p).ofile fd v } f
  have inner := slots_update (s.proc p) fd v f
  simp only [State.setOfile] at outer ⊢
  omega

theorem cwd_setOfile (s : State n m) (p : Fin (m + 1)) (fd : Fin NOFILE) (v : Option (Fin NFILE))
    (q : Fin (m + 1)) : ((s.setOfile p fd v).proc q).cwd = (s.proc q).cwd := by
  rcases eq_or_ne q p with rfl | other
  · simp [State.setOfile, State.setProc]
  · simp [State.setOfile, State.setProc, other]

theorem refsAgree_of_users {s t : State n m} {held pending : List (Inum n)}
    (inv : Refs w t.dinode t.itable (users s.ftable s.proc) held pending)
    (same : users t.ftable t.proc = users s.ftable s.proc) : RefsAgree w t held pending := by
  rw [RefsAgree, same]
  exact inv

theorem refsAgree_setOfile {s : State n m} {p : Fin (m + 1)} {fd : Fin NOFILE}
    {v : Option (Fin NFILE)} {held pending : List (Inum n)} (inv : RefsAgree w s held pending) :
    RefsAgree w (s.setOfile p fd v) held pending :=
  refsAgree_of_users (s := s) (t := s.setOfile p fd v) inv (users_setOfile s p fd v)

section Closing

variable {s t : State n m} {f : Fin NFILE} {loose : List (Fin NFILE)} {held : List (Inum n)}

/-- One reference to the file less. -/
theorem fileclose_ok (files : Files s.ftable s.proc (f :: loose)) (inv : RefsAgree w s held [])
    (h : fileclose f s = .ok t) :
    Files t.ftable t.proc loose ∧ RefsAgree w t held [] ∧ t.proc = s.proc := by
  have count := files.refs f
  rw [List.count_cons_self] at count
  have others : ∀ g, g ≠ f → (f :: loose).count g = loose.count g := fun g other => by
    simp [other.symm]
  have kept : ∀ x : File n, x.ref + 1 = (s.ftable f).ref → (x.ref = 0 ↔ x.type = .none) →
      Files (s.setFile f x).ftable s.proc loose := by
    intro x ref closed
    constructor
    · refine (forall_update_iff s.ftable fun g y => y.ref = holders s.proc g + loose.count g).mpr
        ⟨by omega, fun g other => ?_⟩
      rw [files.refs g, others g other]
    · exact (forall_update_iff s.ftable fun _ y => y.ref = 0 ↔ y.type = .none).mpr
        ⟨closed, fun g _ => files.closed g⟩
  simp only [fileclose] at h
  split at h
  · cases h
  · split at h
    · rename_i more
      cases h
      have opened : (s.ftable f).type ≠ .none := fun none => by
        have := (files.closed f).mpr none
        omega
      refine ⟨kept _ (by simp only; omega) ?_, ?_, rfl⟩
      · exact iff_of_false (by simp only; omega) opened
      · have same :
            users (s.setFile f { s.ftable f with ref := (s.ftable f).ref - 1 }).ftable s.proc
              = users s.ftable s.proc := by
          funext i
          have change := users_setFile s f { s.ftable f with ref := (s.ftable f).ref - 1 } i
          simp only [fileUse] at change
          simpa using change
        exact refsAgree_of_users inv same
    · rename_i pos last
      split at h
      · rename_i none
        have := (files.closed f).mpr none
        omega
      · rename_i opened
        obtain ⟨t', put, same⟩ := bind_eq_ok.mp h
        cases same
        have change := users_setFile s f { s.ftable f with ref := 0, type := .none }
        have given : RefsAgree w (begin_op (s.setFile f { s.ftable f with ref := 0, type := .none }))
            ((s.ftable f).ip :: held) [] := by
          refine inv.hand (fun i => ?_) fun i more => ?_
          · have change := change i
            simp only [fileUse, opened, ne_eq, not_false_eq_true, true_and, not_true, false_and,
              if_false, State.setFile, begin_op] at change ⊢
            rw [List.count_cons]
            simp only [beq_iff_eq]
            omega
          · have change := change i
            simp only [fileUse, opened, ne_eq, not_false_eq_true, true_and, not_true, false_and,
              if_false, State.setFile, begin_op] at change more
            omega
        obtain ⟨inv, ftable, proc, -⟩ := iput_ok given put
        refine ⟨?_, .of_same inv ftable proc, proc⟩
        show Files t'.ftable t'.proc loose
        rw [ftable, proc]
        exact kept { s.ftable f with ref := 0, type := .none } (by simp only; omega) (by simp)

theorem iput_proc {i : Inum n} (h : iput i s = .ok t) : t.proc = s.proc := by
  simp only [iput] at h
  split at h
  · split at h
    · cases h
    · cases h
      rfl
  · cases h
    rfl

theorem fileclose_proc (h : fileclose f s = .ok t) : t.proc = s.proc := by
  simp only [fileclose] at h
  split at h
  · cases h
  · split at h
    · cases h
      rfl
    · split at h
      · cases h
        rfl
      · obtain ⟨t', put, same⟩ := bind_eq_ok.mp h
        cases same
        exact (iput_proc put :)

theorem iput_setProc (i : Inum n) (s : State n m) (p : Fin (m + 1)) (x : Proc n) :
    iput i (s.setProc p x) = (iput i s).map fun t => t.setProc p x := by
  simp only [iput, apply_ite (Except.map _)]
  rfl

theorem fileclose_setProc (f : Fin NFILE) (s : State n m) (p : Fin (m + 1)) (x : Proc n) :
    fileclose f (s.setProc p x) = (fileclose f s).map fun t => t.setProc p x := by
  have put := iput_setProc (s.ftable f).ip
    (begin_op (s.setFile f { s.ftable f with ref := 0, type := .none })) p x
  simp only [fileclose, apply_ite (Except.map _)]
  refine ite_congr rfl (fun _ => rfl) fun _ => ite_congr rfl (fun _ => rfl) fun _ =>
    ite_congr rfl (fun _ => rfl) fun _ => ?_
  refine (congrArg (· >>= fun t => .ok (end_op t)) put).trans ?_
  cases iput (s.ftable f).ip (begin_op (s.setFile f { s.ftable f with ref := 0, type := .none }))
    <;> rfl

/-- A descriptor lets go of its file. -/
theorem files_release {p : Fin (m + 1)} {fd : Fin NOFILE} (files : Files s.ftable s.proc [])
    (here : (s.proc p).ofile fd = some f) :
    Files s.ftable (s.setOfile p fd none).proc [f] := by
  refine ⟨fun g => ?_, files.closed⟩
  have change := holders_setOfile s p fd none g
  have refs := files.refs g
  rw [here] at change
  simp only [reduceCtorEq, if_false, Option.some.injEq, List.count_nil] at change refs
  rw [refs, List.count_singleton]
  simp only [beq_iff_eq]
  omega

theorem gone_release {p : Fin (m + 1)} (gone : Gone s.proc) (slot : Fin NOFILE) :
    Gone (s.setOfile p slot none).proc := by
  intro q none fd
  rw [cwd_setOfile] at none
  have before := gone q none fd
  rcases eq_or_ne q p with rfl | other
  · simp only [State.setOfile, State.setProc, update_self]
    rcases eq_or_ne fd slot with rfl | away
    · exact update_self ..
    · rwa [update_of_ne away]
  · simpa [State.setOfile, State.setProc, other] using before

theorem sys_close_ok {p : Fin (m + 1)} {fd r : Int} (files : Files s.ftable s.proc [])
    (inv : RefsAgree w s [] []) (gone : Gone s.proc) (h : sys_close p fd s = .ok (r, t)) :
    Files t.ftable t.proc [] ∧ RefsAgree w t [] [] ∧ Gone t.proc := by
  unfold sys_close at h
  split at h
  · cases h
    exact ⟨files, inv, gone⟩
  · rename_i slot f found
    obtain ⟨t', close, same⟩ := bind_eq_ok.mp h
    cases same
    have here : (s.proc p).ofile slot = some f := by
      unfold argfd at found
      split at found
      · cases found
      · split at found
        · obtain ⟨g, here, same⟩ := Option.map_eq_some_iff.mp found
          cases same
          exact here
        · cases found
    obtain ⟨files, inv, proc⟩ :=
      fileclose_ok (files_release files here) (refsAgree_setOfile inv) close
    refine ⟨files, inv, ?_⟩
    rw [proc]
    exact gone_release gone slot

end Closing

/-- No reference is held and no name is missing. -/
structure Consistent (w : Allotment n) (s : State n m) : Prop where
  inodes : RefsAgree w s [] []
  files : Files s.ftable s.proc []
  gone : Gone s.proc

/-- A state with the same files. -/
theorem Consistent.of_inodes {s t : State n m} (cons : Consistent w s) (inodes : RefsAgree w t [] [])
    (ftable : t.ftable = s.ftable) (proc : t.proc = s.proc) : Consistent w t := by
  refine ⟨inodes, ?_, ?_⟩
  · rw [ftable, proc]
    exact cons.files
  · rw [proc]
    exact cons.gone

section Exit

variable {s t : State n m} {p np : Fin (m + 1)}

/-- A descriptor is cleared after its file is closed; the order makes no difference. -/
theorem exitFile_ok {fd : Fin NOFILE} (cons : Consistent w s) (h : exitFile p s fd = .ok t) :
    Consistent w t ∧ (t.proc p).ofile = update (s.proc p).ofile fd none ∧
      ∀ q, (t.proc q).cwd = (s.proc q).cwd := by
  unfold exitFile at h
  split at h
  · rename_i empty
    cases h
    exact ⟨cons, by rw [← empty, update_eq_self], fun _ => rfl⟩
  · rename_i f here
    obtain ⟨t', close, same⟩ := bind_eq_ok.mp h
    cases same
    have early : fileclose f (s.setOfile p fd none) = .ok (t'.setProc p
        { s.proc p with ofile := update (s.proc p).ofile fd none }) := by
      rw [State.setOfile, fileclose_setProc, close]
      rfl
    obtain ⟨files, inodes, proc⟩ :=
      fileclose_ok (files_release cons.files here) (refsAgree_setOfile cons.inodes) early
    have same := fileclose_proc close
    have state : t'.setOfile p fd none
        = t'.setProc p { s.proc p with ofile := update (s.proc p).ofile fd none } := by
      rw [State.setOfile, same]
    rw [state]
    refine ⟨⟨inodes, files, ?_⟩, ?_, ?_⟩
    · rw [proc]
      exact gone_release cons.gone fd
    · rw [proc]
      simp [State.setOfile, State.setProc]
    · intro q
      rw [proc]
      exact cwd_setOfile ..

theorem exitFiles_ok {l : List (Fin NOFILE)} (cons : Consistent w s)
    (h : l.foldlM (exitFile p) s = .ok t) :
    Consistent w t ∧ (∀ fd, fd ∈ l ∨ (s.proc p).ofile fd = none → (t.proc p).ofile fd = none) ∧
      ∀ q, (t.proc q).cwd = (s.proc q).cwd := by
  induction l generalizing s with
  | nil =>
    cases h
    exact ⟨cons, by simp, fun _ => rfl⟩
  | cons first rest ih =>
    rw [List.foldlM_cons] at h
    obtain ⟨s', close, h⟩ := bind_eq_ok.mp h
    obtain ⟨cons, closed, cwd⟩ := exitFile_ok cons close
    obtain ⟨cons, empty, cwd'⟩ := ih cons h
    refine ⟨cons, fun fd hfd => empty fd ?_, fun q => (cwd' q).trans (cwd q)⟩
    rw [closed]
    rcases eq_or_ne fd first with rfl | other
    · exact .inr (update_self ..)
    · rw [update_of_ne other]
      rcases hfd with hfd | none
      · exact .inl ((List.mem_cons.mp hfd).resolve_left other)
      · exact .inr none

/-- The current directory of a process changes; the call holds the old one for it. -/
theorem refsAgree_setCwd (held : List (Inum n)) {old : Option (Inum n)} (new : Option (Inum n))
    (inv : RefsAgree w s (new.toList ++ held) []) (here : (s.proc p).cwd = old)
    (typed : ∀ i, new = some i → (s.dinode i).type ≠ .free) :
    RefsAgree w (s.setProc p ⟨new, (s.proc p).ofile⟩) (old.toList ++ held) [] := by
  have change := users_setProc s p ⟨new, (s.proc p).ofile⟩
  have same : (s.setProc p ⟨new, (s.proc p).ofile⟩).ftable = s.ftable := rfl
  have counts : ∀ (o : Option (Inum n)) i,
      (o.toList ++ held).count i = (if o = some i then 1 else 0) + held.count i := by
    intro o i
    cases o with
    | none => simp
    | some j => simp [List.count_cons, add_comm]
  simp only [cwdUse, here] at change
  refine inv.hand (fun i => ?_) fun i more => ?_
  · have change := change i
    rw [same, counts, counts]
    omega
  · have change := change i
    rw [same] at more
    apply typed i
    by_contra other
    rw [if_neg other] at change
    omega

theorem files_setCwd {loose : List (Fin NFILE)} {new : Option (Inum n)}
    (files : Files s.ftable s.proc loose) :
    Files s.ftable (s.setProc p ⟨new, (s.proc p).ofile⟩).proc loose := by
  refine ⟨fun f => ?_, files.closed⟩
  have same : slots f (⟨new, (s.proc p).ofile⟩ : Proc n) = slots f (s.proc p) := rfl
  have change := holders_setProc s p ⟨new, (s.proc p).ofile⟩ f
  rw [files.refs f]
  omega

theorem gone_setCwd {new : Option (Inum n)} (gone : Gone s.proc)
    (empty : new = none → ∀ fd, (s.proc p).ofile fd = none) :
    Gone (s.setProc p ⟨new, (s.proc p).ofile⟩).proc :=
  (forall_update_iff s.proc fun _ x => x.cwd = none → ∀ fd, x.ofile fd = none).mpr
    ⟨empty, fun q _ => gone q⟩

theorem exit_ok (cons : Consistent w s) (h : exit p s = .ok t) : Consistent w t := by
  unfold exit at h
  split at h
  · cases h
  · obtain ⟨s₁, close, h⟩ := bind_eq_ok.mp h
    obtain ⟨cons, empty, -⟩ := exitFiles_ok cons close
    split at h
    · cases h
    · rename_i cwd here
      obtain ⟨s₂, put, same⟩ := bind_eq_ok.mp h
      cases same
      have early : iput cwd (begin_op (s₁.setProc p ⟨none, (s₁.proc p).ofile⟩))
          = .ok (s₂.setProc p ⟨none, (s₁.proc p).ofile⟩) := by
        have := iput_setProc cwd (begin_op s₁) p ⟨none, (s₁.proc p).ofile⟩
        rw [put] at this
        exact this
      have given : RefsAgree w (begin_op (s₁.setProc p ⟨none, (s₁.proc p).ofile⟩)) [cwd] [] :=
        refsAgree_setCwd [] none cons.inodes here (fun i h => by cases h)
      obtain ⟨inodes, ftable, proc, -⟩ := iput_ok given early
      have same : s₂.proc = s₁.proc := (iput_proc put :)
      have state : (end_op s₂).setProc p { s₂.proc p with cwd := none }
          = end_op (s₂.setProc p ⟨none, (s₁.proc p).ofile⟩) := by
        rw [same]
        rfl
      rw [state]
      refine ⟨.of_same inodes ftable proc, ?_, ?_⟩
      · show Files (s₂.setProc p ⟨none, (s₁.proc p).ofile⟩).ftable
          (s₂.setProc p ⟨none, (s₁.proc p).ofile⟩).proc []
        rw [ftable, proc]
        exact files_setCwd cons.files
      · show Gone (s₂.setProc p ⟨none, (s₁.proc p).ofile⟩).proc
        rw [proc]
        exact gone_setCwd cons.gone fun _ fd => empty fd (.inl (List.mem_finRange fd))

end Exit

section Opening

variable {s t : State n m} {p np : Fin (m + 1)} {f : Fin NFILE} {fd : Fin NOFILE}

/-- A free descriptor gets a reference. -/
theorem files_give {loose : List (Fin NFILE)} (files : Files s.ftable s.proc (f :: loose))
    (free : (s.proc p).ofile fd = none) :
    Files s.ftable (s.setOfile p fd (some f)).proc loose := by
  refine ⟨fun g => ?_, files.closed⟩
  have change := holders_setOfile s p fd (some f) g
  have refs := files.refs g
  rw [free] at change
  simp only [reduceCtorEq, if_false, Option.some.injEq, List.count_cons, beq_iff_eq] at change refs
  omega

theorem filedup_ok {loose : List (Fin NFILE)} {held : List (Inum n)}
    (files : Files s.ftable s.proc loose) (inv : RefsAgree w s held []) (h : filedup f s = .ok t) :
    Files t.ftable t.proc (f :: loose) ∧ RefsAgree w t held [] ∧ t.proc = s.proc := by
  simp only [filedup] at h
  split at h
  · cases h
  · cases h
    have refs := files.refs f
    have closed := files.closed f
    refine ⟨⟨?_, ?_⟩, ?_, rfl⟩
    · refine (forall_update_iff s.ftable fun g y =>
        y.ref = holders s.proc g + (f :: loose).count g).mpr ⟨?_, fun g other => ?_⟩
      · rw [List.count_cons_self, refs]
        rfl
      · rw [files.refs g]
        simp [other.symm]
    · refine (forall_update_iff s.ftable fun _ y => y.ref = 0 ↔ y.type = .none).mpr
        ⟨iff_of_false (Nat.succ_ne_zero _) ?_, fun g _ => files.closed g⟩
      intro none
      have := closed.mpr none
      omega
    · have same : users (s.setFile f { s.ftable f with ref := (s.ftable f).ref + 1 }).ftable s.proc
          = users s.ftable s.proc := by
        funext i
        have change := users_setFile s f { s.ftable f with ref := (s.ftable f).ref + 1 } i
        simp only [fileUse] at change
        simpa using change
      exact refsAgree_of_users inv same

/-- The loop of `fork` over descriptors that the child does not have yet. -/
theorem forkFiles_ok {l : List (Fin NOFILE)} (distinct : l.Nodup)
    (files : Files s.ftable s.proc []) (inv : RefsAgree w s [] [])
    (free : ∀ fd ∈ l, (s.proc np).ofile fd = none) (h : l.foldlM (forkFile p np) s = .ok t) :
    Files t.ftable t.proc [] ∧ RefsAgree w t [] [] ∧ (∀ q, q ≠ np → t.proc q = s.proc q) ∧
      (t.proc np).cwd = (s.proc np).cwd := by
  induction l generalizing s with
  | nil =>
    cases h
    exact ⟨files, inv, fun _ _ => rfl, rfl⟩
  | cons fd rest ih =>
    rw [List.foldlM_cons] at h
    obtain ⟨s', first, h⟩ := bind_eq_ok.mp h
    obtain ⟨new, distinct⟩ := List.nodup_cons.mp distinct
    unfold forkFile at first
    split at first
    · cases first
      exact ih distinct files inv (fun fd hfd => free fd (List.mem_cons_of_mem _ hfd)) h
    · rename_i f here
      obtain ⟨s₁, dup, same⟩ := bind_eq_ok.mp first
      cases same
      obtain ⟨files, inv, proc⟩ := filedup_ok files inv dup
      have empty : (s₁.proc np).ofile fd = none := by
        rw [proc]
        exact free fd (List.mem_cons_self ..)
      have others : ∀ q, q ≠ np → (s₁.setOfile np fd (some f)).proc q = s.proc q := by
        intro q away
        rw [← proc]
        exact update_of_ne away ..
      have free' : ∀ g ∈ rest, ((s₁.setOfile np fd (some f)).proc np).ofile g = none := by
        intro g hg
        have away : g ≠ fd := by
          rintro rfl
          exact new hg
        simp only [State.setOfile, State.setProc, update_self, update_of_ne away, proc]
        exact free g (List.mem_cons_of_mem _ hg)
      obtain ⟨files, inv, others', cwd⟩ :=
        ih distinct (files_give files empty) (refsAgree_setOfile inv) free' h
      refine ⟨files, inv, fun q away => (others' q away).trans (others q away), ?_⟩
      rw [cwd, cwd_setOfile, proc]

theorem fork_ok (cons : Consistent w s) (h : fork p np s = .ok t) :
    Consistent w t := by
  unfold fork at h
  split at h
  · cases h
  · rename_i unused
    have unused := not_not.mp unused
    obtain ⟨s₁, copy, h⟩ := bind_eq_ok.mp h
    obtain ⟨files, inv, others, cwd⟩ := forkFiles_ok (List.nodup_finRange NOFILE)
      cons.files cons.inodes (fun fd _ => cons.gone np unused fd) copy
    split at h
    · cases h
    · rename_i cwd' here
      cases h
      have used := users_of_cwd here
      have refs := (inv.entered cwd').refs
      have given : RefsAgree w (idup cwd' s₁) [cwd'] [] := idup_ok inv (by omega)
      have typed := (inv.entered cwd').used used
      refine ⟨?_, files_setCwd files, ?_⟩
      · exact refsAgree_setCwd (s := idup cwd' s₁) [] (some cwd') given
          (cwd.trans unused) (fun i same => Option.some.inj same ▸ typed)
      · refine (forall_update_iff s₁.proc fun _ x => x.cwd = none → ∀ fd, x.ofile fd = none).mpr
          ⟨fun gone => ?_, fun q away => ?_⟩
        · cases gone
        · rw [others q away]
          exact cons.gone q

end Opening

end FileReferences
