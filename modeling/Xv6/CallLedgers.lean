import Xv6.CallOutlines
import Xv6.Lib.Tallies

/-!
# What a call holds

At every point of a call it is known whether the process is inside a transaction, which
inodes it has locked, and to which inodes its local variables refer. Each function
changes these in one way for each result, and at the end of every call nothing is left.
-/

namespace CallLedgers

open CallOutlines Function Triples

variable {n : Nat}

/-- The references that files and current directories do not explain, the files, the current
directories. -/
structure Base (n : Nat) where
  ref : Ip → Int
  ftable : Fin NFILE → File
  cwd : Fin n → Ip

/-- The process is inside a transaction or not, has the locks of `L` and the references `H`. -/
structure Holds (b : Base n) (op : Bool) (L H : List Ip) (s : State n) : Prop where
  inOp : s.inOp = op
  locked : ∀ i, s.locked i = true ↔ i ∈ L
  ref : ∀ i, s.ref i = b.ref i + H.count i
  ftable : s.ftable = b.ftable
  cwd : s.cwd = b.cwd

/-- Source panics and waiting for oneself are possible, misuse is not. -/
def Allowed (e : Stop) : Prop := e ≠ .misuse

/-- A piece of a call. -/
def Spec {A : Type} (P : State n → Prop) (m : Call n A) (Q : A → State n → Prop) : Prop :=
  Triple Allowed P m Q

variable {b : Base n} {op : Bool} {L H H' : List Ip} {ip dp : Ip} {s : State n}

theorem panics {A : Type} {P : State n → Prop} {Q : A → State n → Prop} :
    Spec P (throw .panic : Call n A) Q := triple_throw (by simp [Allowed])

/-- The order in which references and locks are listed does not matter. -/
theorem Holds.perm {L' : List Ip} (holds : Holds b op L H s) (locks : L.Perm L')
    (refs : H.Perm H') : Holds b op L' H' s := by
  refine ⟨holds.inOp, fun i => ?_, fun i => ?_, holds.ftable, holds.cwd⟩
  · rw [holds.locked, locks.mem_iff]
  · rw [holds.ref, refs.count_eq]

theorem Holds.swap (holds : Holds b op L (ip :: dp :: H) s) : Holds b op L (dp :: ip :: H) s :=
  holds.perm (List.Perm.refl _) (List.Perm.swap ..)

/-- A reference that a file or a current directory had becomes one of the call. -/
theorem Holds.give (holds : Holds b op L H s) (ip : Ip) :
    Holds { b with ref := update b.ref ip (b.ref ip - 1) } op L (ip :: H) s := by
  refine ⟨holds.inOp, holds.locked, fun i => ?_, holds.ftable, holds.cwd⟩
  rw [holds.ref]
  by_cases same : i = ip
  · subst same
    simp only [update_self, List.count_cons_self]
    omega
  · simp only [update_of_ne same, List.count_cons_of_ne (Ne.symm same)]

theorem giving {A : Type} {m : Call n A} {Q : A → State n → Prop} (ip : Ip)
    (h : Spec (Holds { b with ref := update b.ref ip (b.ref ip - 1) } op L (ip :: H)) m Q) :
    Spec (Holds b op L H) m Q :=
  h.mono (fun _ holds => holds.give ip) fun _ _ here => here

/-- A reference of the call becomes that of a file or a current directory. -/
theorem Holds.take (holds : Holds b op L (ip :: H) s) :
    Holds { b with ref := update b.ref ip (b.ref ip + 1) } op L H s := by
  refine ⟨holds.inOp, holds.locked, fun i => ?_, holds.ftable, holds.cwd⟩
  rw [holds.ref]
  by_cases same : i = ip
  · subst same
    simp only [update_self, List.count_cons_self]
    omega
  · simp only [update_of_ne same, List.count_cons_of_ne (Ne.symm same)]

theorem ask_holds : Spec (Holds b op L H) (ask : Call n Bool) fun _ => Holds b op L H := by
  intro s holds
  cases given : s.answers with
  | nil =>
    simp only [ask, given]
    exact holds
  | cons a rest =>
    simp only [ask, given]
    exact ⟨holds.inOp, holds.locked, holds.ref, holds.ftable, holds.cwd⟩

theorem pick_holds : Spec (Holds b op L H) (pick : Call n Ip) fun _ => Holds b op L H := by
  intro s holds
  cases given : s.answers with
  | nil =>
    simp only [pick, given]
    exact holds
  | cons a rest =>
    simp only [pick, given]
    exact ⟨holds.inOp, holds.locked, holds.ref, holds.ftable, holds.cwd⟩

/-- A test whose result does not matter to what is held. -/
theorem asking {A : Type} {yes no : Call n A} {Q : A → State n → Prop}
    (hyes : Spec (Holds b op L H) yes Q) (hno : Spec (Holds b op L H) no Q) :
    Spec (Holds b op L H) (do if ← ask then yes else no) Q := by
  refine triple_bind ask_holds fun a => ?_
  exact triple_ite (fun _ => hyes) fun _ => hno

theorem begin_op_holds :
    Spec (Holds b false L H) begin_op fun _ => Holds b true L H := by
  intro s holds
  unfold begin_op
  rw [if_neg (by simp [holds.inOp])]
  exact ⟨rfl, holds.locked, holds.ref, holds.ftable, holds.cwd⟩

theorem end_op_holds :
    Spec (Holds b true L H) end_op fun _ => Holds b false L H := by
  intro s holds
  unfold end_op
  rw [if_pos holds.inOp]
  exact ⟨rfl, holds.locked, holds.ref, holds.ftable, holds.cwd⟩

theorem Holds.addRef (holds : Holds b op L H s) {k : Int}
    (counts : ∀ i, (H'.count i : Int) = H.count i + if i = ip then k else 0) :
    Holds b op L H' (s.addRef ip k) := by
  refine ⟨holds.inOp, holds.locked, fun i => ?_, holds.ftable, holds.cwd⟩
  have here := holds.ref i
  have count := counts i
  by_cases same : i = ip
  · subst same
    simp only [State.addRef, update_self]
    simp only [if_true] at count
    omega
  · simp only [State.addRef, update_of_ne same]
    rw [if_neg same] at count
    omega

theorem count_cons (ip : Ip) (H : List Ip) (i : Ip) :
    ((ip :: H).count i : Int) = H.count i + if i = ip then 1 else 0 := by
  by_cases same : i = ip
  · subst same
    simp
  · simp [Ne.symm same, same]

theorem idup_holds : Spec (Holds b op L H) (idup ip) fun _ => Holds b op L (ip :: H) :=
  triple_modify fun _ holds => holds.addRef (count_cons ip H)

theorem iget_holds : Spec (Holds b op L H) (iget : Call n Ip) fun ip => Holds b op L (ip :: H) := by
  refine asking panics ?_
  refine triple_bind pick_holds fun ip => ?_
  exact triple_bind idup_holds fun _ => triple_pure fun _ holds => holds

theorem ilock_holds :
    Spec (Holds b op L H) (ilock ip) fun _ s => ip ∉ L ∧ Holds b op (ip :: L) H s := by
  refine triple_bind (triple_get (Q := fun s t => (∀ i, s.locked i = true ↔ i ∈ L) ∧
    Holds b op L H t) fun _ holds => ⟨holds.locked, holds⟩) fun s => triple_of fun locked => ?_
  refine triple_ite (fun _ => panics) fun _ => triple_ite
    (fun _ => triple_throw (by simp [Allowed])) fun free => ?_
  have out : ip ∉ L := fun mem => free ((locked ip).mpr mem)
  refine triple_bind (R := fun _ => Holds b op (ip :: L) H) (triple_modify fun t holds => ?_)
    fun _ => asking panics (triple_pure fun _ holds => ⟨out, holds⟩)
  refine ⟨holds.inOp, fun i => ?_, holds.ref, holds.ftable, holds.cwd⟩
  by_cases same : i = ip
  · subst same
    simp [State.setLock]
  · simp [State.setLock, same, holds.locked]

theorem iunlock_holds (out : ip ∉ L) :
    Spec (Holds b op (ip :: L) H) (iunlock ip) fun _ => Holds b op L H := by
  refine triple_bind (triple_get (Q := fun _ => Holds b op (ip :: L) H) fun _ holds => holds)
    fun s => triple_ite (fun _ => panics) fun _ => triple_modify fun t holds => ?_
  refine ⟨holds.inOp, fun i => ?_, holds.ref, holds.ftable, holds.cwd⟩
  by_cases same : i = ip
  · subst same
    simp [State.setLock, out]
  · simp [State.setLock, same, holds.locked]

theorem iput_holds : Spec (Holds b true L (ip :: H)) (iput ip) fun _ => Holds b true L H := by
  refine triple_bind (triple_get (Q := fun s t => s.inOp = true ∧ Holds b true L (ip :: H) t)
    fun _ holds => ⟨holds.inOp, holds⟩) fun s => triple_of fun inside => ?_
  refine triple_ite (fun outside => ?_) fun _ => triple_bind ask_holds fun _ =>
    triple_ite (fun _ => triple_throw (by simp [Allowed])) fun _ => triple_modify fun t holds =>
      holds.addRef fun i => ?_
  · rw [inside] at outside
    cases outside
  · rw [count_cons]
    split <;> omega

theorem iunlockput_holds (out : ip ∉ L) :
    Spec (Holds b true (ip :: L) (ip :: H)) (iunlockput ip) fun _ => Holds b true L H :=
  triple_bind (iunlock_holds out) fun _ => iput_holds

theorem ialloc_holds :
    Spec (Holds b op L H) (ialloc : Call n (Option Ip)) fun r => Holds b op L (r.toList ++ H) :=
  asking (triple_bind iget_holds fun _ => triple_pure fun _ holds => holds)
    (triple_pure fun _ holds => holds)

theorem dirlookup_holds :
    Spec (Holds b op L H) (dirlookup dp) fun r => Holds b op L (r.toList ++ H) :=
  asking panics ialloc_holds

theorem dirlink_holds : Spec (Holds b true L H) (dirlink dp) fun _ => Holds b true L H := by
  refine triple_bind dirlookup_holds fun r => ?_
  cases r with
  | none => exact asking (triple_pure fun _ holds => holds) (triple_pure fun _ holds => holds)
  | some ip => exact triple_bind iput_holds fun _ => triple_pure fun _ holds => holds

/-- The walk has one reference and no lock between its rounds. -/
theorem namexLoop_holds {nameiparent : Bool} (elements : Nat) (ip : Ip) :
    Spec (Holds b true L (ip :: H)) (namexLoop nameiparent elements ip)
      fun r => Holds b true L (r.toList ++ H) := by
  induction elements generalizing ip with
  | zero =>
    exact triple_ite (fun _ => triple_bind iput_holds fun _ => triple_pure fun _ holds => holds)
      fun _ => triple_pure fun _ holds => holds
  | succ elements ih =>
    refine triple_bind ilock_holds fun _ => triple_of fun out => ?_
    refine asking (triple_bind (iunlockput_holds out) fun _ => triple_pure fun _ holds => holds) ?_
    refine triple_ite (fun _ => triple_bind (iunlock_holds out) fun _ =>
      triple_pure fun _ holds => holds) fun _ => ?_
    refine triple_bind dirlookup_holds fun r => ?_
    cases r with
    | none => exact triple_bind (iunlockput_holds out) fun _ => triple_pure fun _ holds => holds
    | some next =>
      have put := (iunlockput_holds (b := b) (H := next :: H) out).mono
        (fun s (holds : Holds b true (ip :: L) (next :: ip :: H) s) => holds.swap)
        fun _ _ holds => holds
      exact triple_bind put fun _ => ih next

theorem namex_holds {p : Fin n} {path : Path} {nameiparent : Bool} :
    Spec (Holds b true L H) (namex p path nameiparent)
      fun r => Holds b true L (r.toList ++ H) := by
  refine triple_bind (R := fun ip => Holds b true L (ip :: H)) ?_ (namexLoop_holds _)
  refine triple_ite (fun _ => iget_holds) fun _ => ?_
  refine triple_bind (triple_get (Q := fun _ => Holds b true L H) fun _ holds => holds) fun s => ?_
  exact triple_bind idup_holds fun _ => triple_pure fun _ holds => holds

theorem createFail_holds (apart : ip ∉ [dp]) :
    Spec (Holds b true [ip, dp] [ip, dp]) (createFail ip dp) fun r =>
      Holds b true r.toList r.toList :=
  triple_bind (iunlockput_holds apart) fun _ => triple_bind (iunlockput_holds (by simp)) fun _ =>
    triple_pure fun _ holds => holds

theorem createDots_holds : Spec (Holds b true L H) (createDots ip) fun _ => Holds b true L H :=
  triple_bind dirlink_holds fun _ => triple_ite (fun _ => triple_pure fun _ holds => holds)
    fun _ => dirlink_holds

/-- A new inode is returned locked. -/
theorem create_holds {p : Fin n} {path : Path} {dir file : Bool} :
    Spec (Holds b true [] []) (create p path dir file) fun r => Holds b true r.toList r.toList := by
  refine triple_bind namex_holds fun r => ?_
  cases r with
  | none => exact triple_pure fun _ holds => holds
  | some dp =>
    refine triple_bind ilock_holds fun _ => triple_of fun _ => ?_
    refine triple_bind dirlookup_holds fun r => ?_
    cases r with
    | some ip =>
      have put := (iunlockput_holds (b := b) (H := [ip]) (L := [])
        (List.not_mem_nil (a := dp))).mono
        (fun s (holds : Holds b true [dp] [ip, dp] s) => holds.swap) fun _ _ holds => holds
      refine triple_bind put fun _ => triple_bind ilock_holds fun _ => triple_of fun out => ?_
      refine triple_bind ask_holds fun _ => triple_ite (fun _ => triple_pure fun _ holds => holds)
        fun _ => ?_
      exact triple_bind (iunlockput_holds out) fun _ => triple_pure fun _ holds => holds
    | none =>
      refine triple_bind ialloc_holds fun r => ?_
      cases r with
      | none =>
        exact triple_bind (iunlockput_holds (by simp)) fun _ => triple_pure fun _ holds => holds
      | some ip =>
        refine triple_bind ilock_holds fun _ => triple_of fun apart => ?_
        refine triple_bind (R := fun _ => Holds b true [ip, dp] [ip, dp]) ?_ fun r => ?_
        · exact triple_ite (fun _ => createDots_holds) fun _ => triple_pure fun _ holds => holds
        refine triple_ite (fun _ => createFail_holds apart) fun _ => triple_bind dirlink_holds
          fun r => triple_ite (fun _ => createFail_holds apart) fun _ => ?_
        have other : dp ∉ [ip] := fun mem =>
          apart (List.mem_singleton.mpr (List.mem_singleton.mp mem).symm)
        have put := (iunlockput_holds (b := b) (H := [ip]) other).mono
          (fun s (holds : Holds b true [ip, dp] [ip, dp] s) =>
            holds.perm (List.Perm.swap ..) (List.Perm.swap ..)) fun _ _ holds => holds
        exact triple_bind put fun _ => triple_pure fun _ holds => holds

/-- The call returns with nothing in its hands. -/
theorem returns {A : Type} {a : A} {Q : State n → Prop} (h : ∀ s, Holds b false [] [] s → Q s) :
    Spec (Holds b false [] []) (pure a : Call n A) fun _ => Q := triple_pure h

theorem ended {r : Int} :
    Spec (Holds b true [] []) (do
      end_op
      return r : Call n Int) fun _ => Holds b false [] [] :=
  triple_bind end_op_holds fun _ => returns fun _ holds => holds

theorem linkBad_holds :
    Spec (Holds b true [] [ip]) (linkBad ip) fun _ => Holds b false [] [] :=
  triple_bind ilock_holds fun _ => triple_of fun out => triple_bind (iunlockput_holds out) fun _ =>
    ended

theorem sys_link_holds {p : Fin n} {old new : Path} :
    Spec (Holds b false [] []) (sys_link p old new) fun _ => Holds b false [] [] := by
  refine asking (triple_pure fun _ holds => holds) (triple_bind begin_op_holds fun _ => ?_)
  refine triple_bind namex_holds fun r => ?_
  cases r with
  | none => exact ended
  | some ip =>
    refine triple_bind ilock_holds fun _ => triple_of fun out => ?_
    refine asking (triple_bind (iunlockput_holds out) fun _ => ended) ?_
    refine triple_bind (iunlock_holds out) fun _ => triple_bind namex_holds fun r => ?_
    cases r with
    | none => exact linkBad_holds
    | some dp =>
      refine triple_bind ilock_holds fun _ => triple_of fun away => ?_
      refine triple_bind (asking (triple_pure fun _ holds => holds) dirlink_holds) fun r => ?_
      refine triple_ite (fun _ => ?_) fun _ => ?_
      · exact triple_bind (iunlockput_holds away) fun _ => linkBad_holds
      · exact triple_bind (iunlockput_holds away) fun _ => triple_bind iput_holds fun _ => ended

theorem unlinkBad_holds :
    Spec (Holds b true [dp] [dp]) (unlinkBad dp) fun _ => Holds b false [] [] :=
  triple_bind (iunlockput_holds (by simp)) fun _ => ended

theorem sys_unlink_holds {p : Fin n} {path : Path} :
    Spec (Holds b false [] []) (sys_unlink p path) fun _ => Holds b false [] [] := by
  refine asking (triple_pure fun _ holds => holds) (triple_bind begin_op_holds fun _ => ?_)
  refine triple_bind namex_holds fun r => ?_
  cases r with
  | none => exact ended
  | some dp =>
    refine triple_bind ilock_holds fun _ => triple_of fun _ => asking unlinkBad_holds ?_
    refine triple_bind dirlookup_holds fun r => ?_
    cases r with
    | none => exact unlinkBad_holds
    | some ip =>
      refine triple_bind ilock_holds fun _ => triple_of fun apart => asking panics ?_
      refine asking (triple_bind (iunlockput_holds apart) fun _ => unlinkBad_holds) ?_
      refine asking panics ?_
      -- the directory goes first
      have other : dp ∉ [ip] := fun mem =>
        apart (List.mem_singleton.mpr (List.mem_singleton.mp mem).symm)
      have put := (iunlockput_holds (b := b) (H := [ip]) other).mono
        (fun s (holds : Holds b true [ip, dp] [ip, dp] s) =>
          holds.perm (List.Perm.swap ..) (List.Perm.swap ..)) fun _ _ holds => holds
      exact triple_bind put fun _ => triple_bind (iunlockput_holds (by simp)) fun _ => ended

theorem makeInode_holds {p : Fin n} {path : Path} {dir : Bool} :
    Spec (Holds b false [] []) (makeInode p path dir) fun _ => Holds b false [] [] := by
  refine triple_bind begin_op_holds fun _ => ?_
  refine triple_bind (asking (triple_pure fun _ holds => holds) create_holds) fun r => ?_
  cases r with
  | none => exact ended
  | some ip => exact triple_bind (iunlockput_holds (by simp)) fun _ => ended

theorem loadSegments_holds (headers : Nat) :
    Spec (Holds b op L H) (loadSegments headers) fun _ => Holds b op L H := by
  induction headers with
  | zero => exact triple_pure fun _ holds => holds
  | succ headers ih =>
    have fails : Spec (Holds b op L H) (pure false : Call n Bool) fun _ => Holds b op L H :=
      triple_pure fun _ holds => holds
    exact asking fails (asking ih (asking fails (asking fails ih)))

theorem pushArguments_holds (argc : Nat) :
    Spec (Holds b op L H) (pushArguments argc) fun _ => Holds b op L H := by
  induction argc with
  | zero => exact triple_pure fun _ holds => holds
  | succ argc ih => exact asking (triple_pure fun _ holds => holds) ih

theorem execBad_holds :
    Spec (Holds b true [ip] [ip]) (execBad (some ip)) fun _ => Holds b false [] [] :=
  triple_bind (iunlockput_holds (by simp)) fun _ => ended

theorem exec_holds {p : Fin n} {path : Path} {headers argc : Nat} :
    Spec (Holds b false [] []) (exec p path headers argc) fun _ => Holds b false [] [] := by
  refine triple_bind begin_op_holds fun _ => triple_bind namex_holds fun r => ?_
  cases r with
  | none => exact ended
  | some ip =>
    refine triple_bind ilock_holds fun _ => triple_of fun out => asking execBad_holds ?_
    refine triple_bind (loadSegments_holds headers) fun _ => triple_ite (fun _ => ?_)
      fun _ => execBad_holds
    refine triple_bind (iunlockput_holds out) fun _ => triple_bind end_op_holds fun _ => ?_
    have over_ {r : Int} : Spec (Holds b false [] []) (pure r : Call n Int) fun _ =>
        Holds b false [] [] := triple_pure fun _ holds => holds
    exact asking over_ (triple_bind (pushArguments_holds argc) fun _ =>
      triple_ite (fun _ => asking over_ over_) fun _ => over_)

/-- The references of open files and current directories to an inode. -/
def users (ftable : Fin NFILE → File) (cwd : Fin n → Ip) (i : Ip) : Nat :=
  (∑ f, if (ftable f).opened ∧ (ftable f).ip = i then 1 else 0) + ∑ p, if cwd p = i then 1 else 0

/-- A file that is not in use is not open. -/
def Clean (ftable : Fin NFILE → File) : Prop :=
  ∀ f, (ftable f).ref = 0 → (ftable f).type = .none

/-- Files and current directories have changed, and the references with them. -/
structure Settles (b b' : Base n) : Prop where
  ref : ∀ i, b'.ref i - users b'.ftable b'.cwd i = b.ref i - users b.ftable b.cwd i
  clean : Clean b.ftable → Clean b'.ftable

/-- What holds after a call. -/
def Done (b : Base n) (s : State n) : Prop := ∃ b', Settles b b' ∧ Holds b' false [] [] s

theorem Settles.refl (b : Base n) : Settles b b := ⟨fun _ => rfl, fun clean => clean⟩

theorem done_of_holds (holds : Holds b false [] [] s) : Done b s := ⟨b, .refl b, holds⟩

theorem users_file (ftable : Fin NFILE → File) (cwd : Fin n → Ip) (f : Fin NFILE) (x : File)
    (i : Ip) :
    users (update ftable f x) cwd i + (if (ftable f).opened ∧ (ftable f).ip = i then 1 else 0) =
      users ftable cwd i + if x.opened ∧ x.ip = i then 1 else 0 := by
  have change :=
    Tallies.sum_update (fun x : File => if x.opened ∧ x.ip = i then 1 else 0) ftable f x
  simp only [users] at change ⊢
  omega

theorem users_cwd (ftable : Fin NFILE → File) (cwd : Fin n → Ip) (p : Fin n) (ip : Ip) (i : Ip) :
    users ftable (update cwd p ip) i + (if cwd p = i then 1 else 0)
      = users ftable cwd i + if ip = i then 1 else 0 := by
  have change := Tallies.sum_update (fun c : Ip => if c = i then 1 else 0) cwd p ip
  simp only [users] at change ⊢
  omega

theorem Holds.setFtable (holds : Holds b op L H s) (ftable : Fin NFILE → File) :
    Holds { b with ftable := ftable } op L H { s with ftable := ftable } :=
  ⟨holds.inOp, holds.locked, holds.ref, rfl, holds.cwd⟩

theorem not_opened {x : File} (none : x.type = .none) : x.opened = false := by
  simp [File.opened, none]

/-- What a process reads from the file table. -/
theorem reading {A : Type} {f : State n → Call n A} {Q : A → State n → Prop}
    (next : ∀ s, s.ftable = b.ftable ∧ s.cwd = b.cwd → Spec (Holds b op L H) (f s) Q) :
    Spec (Holds b op L H) (get >>= f) Q :=
  triple_bind (triple_get (Q := fun s t => (s.ftable = b.ftable ∧ s.cwd = b.cwd) ∧ Holds b op L H t)
    fun _ holds => ⟨⟨holds.ftable, holds.cwd⟩, holds⟩) fun s => triple_of (next s)

/-- Closing a file whose last reference goes. -/
theorem settles_closed {f : Fin NFILE} (opened : (b.ftable f).opened = true) :
    Settles b ⟨update b.ref (b.ftable f).ip (b.ref (b.ftable f).ip - 1),
      update b.ftable f ⟨.none, 0, (b.ftable f).ip⟩, b.cwd⟩ := by
  constructor
  · intro i
    have closed : (⟨.none, 0, (b.ftable f).ip⟩ : File).opened = false := not_opened rfl
    have change := users_file b.ftable b.cwd f ⟨.none, 0, (b.ftable f).ip⟩ i
    simp only [opened, closed, true_and, Bool.false_eq_true, false_and, if_false] at change
    by_cases same : i = (b.ftable f).ip
    · subst same
      simp only [update_self]
      simp only [if_true] at change
      omega
    · simp only [update_of_ne same]
      rw [if_neg (Ne.symm same)] at change
      omega
  · intro clean g zero
    by_cases same : g = f
    · subst same
      simp
    · simp only [update_of_ne same] at zero ⊢
      exact clean g zero

/-- A file changes but for what it refers to. -/
theorem settles_file {f : Fin NFILE} {x : File} (opened : x.opened = (b.ftable f).opened)
    (ip : x.ip = (b.ftable f).ip) (clean_ : x.ref = 0 → x.type = .none) :
    Settles b { b with ftable := update b.ftable f x } := by
  constructor
  · intro i
    have change := users_file b.ftable b.cwd f x i
    rw [opened, ip] at change
    simp only
    omega
  · intro clean g zero
    by_cases same : g = f
    · subst same
      simp only [update_self] at zero ⊢
      exact clean_ zero
    · simp only [update_of_ne same] at zero ⊢
      exact clean g zero

theorem fileclose_done {f : Fin NFILE} :
    Spec (Holds b false [] []) (fileclose f) fun _ => Done b := by
  refine reading fun s same => ?_
  simp only [same.1]
  refine triple_ite (fun _ => panics) fun _ => triple_ite (fun more => ?_) fun _ => ?_
  · have settles : Settles b { b with
        ftable := update b.ftable f { b.ftable f with ref := (b.ftable f).ref - 1 } } := by
      refine settles_file rfl rfl fun zero => ?_
      simp only at zero
      omega
    refine triple_modify fun t holds => ⟨_, settles, ?_⟩
    rw [← holds.ftable]
    exact holds.setFtable _
  · refine triple_bind (R := fun _ => Holds { b with
      ftable := update b.ftable f { b.ftable f with ref := 0, type := .none } } false [] [])
      (triple_modify fun t holds => ?_) fun _ => triple_ite (fun opened => ?_) fun unopened => ?_
    · rw [← holds.ftable]
      exact holds.setFtable _
    · refine giving (b.ftable f).ip (triple_bind begin_op_holds fun _ => triple_bind iput_holds
        fun _ => ?_)
      exact end_op_holds.mono (fun _ holds => holds) fun _ _ holds =>
        ⟨_, settles_closed opened, holds⟩
    · have settles : Settles b { b with
          ftable := update b.ftable f { b.ftable f with ref := 0, type := .none } } := by
        refine settles_file ?_ rfl fun _ => rfl
        rw [not_opened rfl]
        exact (Bool.eq_false_iff.mpr unopened).symm
      exact triple_pure fun t holds => ⟨_, settles, holds⟩

/-- A file that was taken and not set up goes back. -/
theorem fileclose_unset {f : Fin NFILE} (zero : (b.ftable f).ref = 0)
    (none : (b.ftable f).type = .none) :
    Spec (Holds { b with ftable := update b.ftable f { b.ftable f with ref := 1 } } op L H)
      (fileclose f) fun _ => Holds b op L H := by
  have back : update (update b.ftable f { b.ftable f with ref := 1 }) f
      { b.ftable f with ref := 0, type := .none } = b.ftable := by
    rw [update_idem, ← zero, ← none, update_eq_self]
  refine reading fun s same => ?_
  simp only [same.1, update_self]
  refine triple_ite (fun _ => panics) fun _ => triple_ite (fun more => absurd more (by simp))
    fun _ => ?_
  refine triple_bind (R := fun _ => Holds b op L H) (triple_modify fun t holds => ?_) fun _ =>
    triple_ite (fun opened => ?_) fun _ => triple_pure fun _ holds => holds
  · have set := holds.setFtable (update t.ftable f { b.ftable f with ref := 0, type := .none })
    simp only [holds.ftable, back] at set ⊢
    exact set
  · rw [File.opened] at opened
    simp [none] at opened

theorem filealloc_holds :
    Spec (Holds b op L H) (filealloc : Call n (Option (Fin NFILE))) fun r s => match r with
      | none => Holds b op L H s
      | some f => (b.ftable f).ref = 0 ∧
        Holds { b with ftable := update b.ftable f { b.ftable f with ref := 1 } } op L H s := by
  intro s holds
  cases found : (List.finRange NFILE).find? fun f => (s.ftable f).ref = 0 with
  | none =>
    simp only [filealloc, found]
    exact holds
  | some f =>
    have zero : (s.ftable f).ref = 0 := by simpa using List.find?_some found
    simp only [filealloc, found]
    rw [← holds.ftable]
    exact ⟨zero, holds.setFtable _⟩

/-- The call's reference becomes that of the file. -/
theorem settles_opened {f : Fin NFILE} {x : File} (clean : Clean b.ftable)
    (zero : (b.ftable f).ref = 0) (opened : x.opened = true) (ref : x.ref ≠ 0) :
    Settles b ⟨update b.ref x.ip (b.ref x.ip + 1), update b.ftable f x, b.cwd⟩ := by
  constructor
  · intro i
    have change := users_file b.ftable b.cwd f x i
    rw [not_opened (clean f zero), opened] at change
    by_cases same : i = x.ip
    · subst same
      simp only [update_self]
      simp only [Bool.false_eq_true, false_and, if_false, and_self, if_true] at change
      omega
    · simp only [update_of_ne same]
      simp only [Bool.false_eq_true, false_and, if_false, Ne.symm same, and_false] at change
      omega
  · intro clean g none
    by_cases same : g = f
    · subst same
      simp only [update_self] at none
      exact absurd none ref
    · simp only [update_of_ne same] at none ⊢
      exact clean g none

theorem ended_done {r : Int} : Spec (Holds b true [] []) (do
      end_op
      return r : Call n Int) fun _ => Done b :=
  ended.mono (fun _ holds => holds) fun _ _ holds => done_of_holds holds

theorem openFile_done (clean : Clean b.ftable) :
    Spec (Holds b true [ip] [ip]) (openFile ip) fun _ => Done b := by
  have fails : Spec (Holds b true [ip] [ip]) (do
      iunlockput ip
      end_op
      return -1 : Call n Int) fun _ => Done b :=
    triple_bind (iunlockput_holds (by simp)) fun _ => ended_done
  refine triple_bind ask_holds fun device => asking fails (triple_bind filealloc_holds fun r => ?_)
  cases r with
  | none => exact fails
  | some f =>
    refine triple_of fun zero => asking
      (triple_bind (fileclose_unset zero (clean f zero)) fun _ => fails) ?_
    let x : File := ⟨if device then .device else .inode, 1, ip⟩
    have opened : x.opened = true := by
      cases device <;> rfl
    refine triple_bind (R := fun _ => Holds ⟨update b.ref ip (b.ref ip + 1), update b.ftable f x,
      b.cwd⟩ true [ip] []) (triple_modify fun t holds => ?_) fun _ => ?_
    · have took := holds.take
      refine ⟨took.inOp, took.locked, took.ref, ?_, took.cwd⟩
      simp only [holds.ftable, update_idem, update_self]
      rfl
    · refine triple_bind (iunlock_holds (by simp)) fun _ => triple_bind end_op_holds fun _ => ?_
      exact triple_pure fun _ holds => ⟨_, settles_opened clean zero opened (by simp [x]), holds⟩

theorem sys_open_done {p : Fin n} {path : Path} {creates : Bool} (clean : Clean b.ftable) :
    Spec (Holds b false [] []) (sys_open p path creates) fun _ => Done b := by
  refine asking (triple_pure fun _ holds => done_of_holds holds)
    (triple_bind begin_op_holds fun _ => triple_ite (fun _ => ?_) fun _ => ?_)
  · refine triple_bind create_holds fun r => ?_
    cases r with
    | none => exact ended_done
    | some ip => exact openFile_done clean
  · refine triple_bind namex_holds fun r => ?_
    cases r with
    | none => exact ended_done
    | some ip =>
      refine triple_bind ilock_holds fun _ => triple_of fun out => asking ?_ (openFile_done clean)
      exact triple_bind (iunlockput_holds out) fun _ => ended_done

/-- The old directory's reference goes and the new one's comes. -/
theorem settles_chdir (b : Base n) (p : Fin n) (ip : Ip) :
    Settles b ⟨update (update b.ref (b.cwd p) (b.ref (b.cwd p) - 1)) ip
      (update b.ref (b.cwd p) (b.ref (b.cwd p) - 1) ip + 1), b.ftable, update b.cwd p ip⟩ := by
  refine ⟨fun i => ?_, fun clean => clean⟩
  have change := users_cwd b.ftable b.cwd p ip i
  simp only
  generalize b.cwd p = old at change ⊢
  rcases eq_or_ne i ip with rfl | new
  · rcases eq_or_ne i old with rfl | kept
    · rw [update_self, update_self]
      omega
    · rw [update_self, update_of_ne kept]
      rw [if_neg kept.symm, if_pos rfl] at change
      omega
  · rcases eq_or_ne i old with rfl | kept
    · rw [update_of_ne new, update_self]
      rw [if_pos rfl, if_neg new.symm] at change
      omega
    · rw [update_of_ne new, update_of_ne kept]
      rw [if_neg kept.symm, if_neg new.symm] at change
      omega

theorem sys_chdir_done {p : Fin n} {path : Path} :
    Spec (Holds b false [] []) (sys_chdir p path) fun _ => Done b := by
  refine triple_bind begin_op_holds fun _ => ?_
  refine triple_bind (asking (triple_pure fun _ holds => holds) namex_holds) fun r => ?_
  cases r with
  | none => exact ended_done
  | some ip =>
    refine triple_bind ilock_holds fun _ => triple_of fun out => asking
      (triple_bind (iunlockput_holds out) fun _ => ended_done) ?_
    refine triple_bind (iunlock_holds out) fun _ => reading fun s same => ?_
    rw [same.2]
    refine giving (b.cwd p) (triple_bind iput_holds fun _ => triple_bind end_op_holds fun _ => ?_)
    refine triple_bind (R := fun _ => Done b) (triple_modify fun t holds => ?_) fun _ =>
      triple_pure fun _ done => done
    have took := holds.take
    refine ⟨_, settles_chdir b p ip, took.inOp, took.locked, took.ref, took.ftable, ?_⟩
    simp only [holds.cwd]

theorem perform_done (c : Sys n) (clean : Clean b.ftable) :
    Spec (Holds b false [] []) (perform c) fun _ => Done b := by
  have quiet {m : Call n Int} (h : Spec (Holds b false [] []) m fun _ => Holds b false [] []) :
      Spec (Holds b false [] []) m fun _ => Done b :=
    h.mono (fun _ holds => holds) fun _ _ holds => done_of_holds holds
  cases c with
  | link p old new => exact quiet sys_link_holds
  | unlink p path => exact quiet sys_unlink_holds
  | «open» p path creates => exact sys_open_done clean
  | mkdir p path => exact quiet makeInode_holds
  | mknod p path => exact quiet makeInode_holds
  | chdir p path => exact sys_chdir_done
  | exec p path headers argc => exact quiet exec_holds
  | fileclose f => exact triple_bind fileclose_done fun _ => triple_pure fun _ done => done

/-- The references of open files and of current directories. -/
def references (s : State n) : Nat := (∑ f, if (s.ftable f).opened then 1 else 0) + n

/-- Between calls: no transaction, no lock, and as many references as there are holders. -/
structure Tidy (s : State n) : Prop where
  inOp : s.inOp = false
  locked : ∀ i, s.locked i = false
  clean : Clean s.ftable
  ref : ∑ i, s.ref i = references s

theorem sum_users (s : State n) : ∑ i, users s.ftable s.cwd i = references s := by
  have one (ip : Ip) : (∑ i, if ip = i then 1 else 0) = 1 := by
    rw [Finset.sum_eq_single ip (fun i _ other => if_neg other.symm) (by simp), if_pos rfl]
  have files (f : Fin NFILE) : (∑ i, if (s.ftable f).opened ∧ (s.ftable f).ip = i then 1 else 0) =
      if (s.ftable f).opened then 1 else 0 := by
    by_cases opened : (s.ftable f).opened = true
    · simp only [opened, true_and, if_true]
      exact one _
    · simp [opened]
  have dirs : (∑ p : Fin n, ∑ i, if s.cwd p = i then 1 else 0) = n := by
    rw [Finset.sum_congr rfl fun p _ => one (s.cwd p)]
    simp
  simp only [users, references, Finset.sum_add_distrib]
  rw [Finset.sum_comm, Finset.sum_congr rfl fun f _ => files f, Finset.sum_comm, dirs]

theorem cast_sum (f : Ip → Nat) : ∑ i, (f i : Int) = (∑ i, f i : Nat) :=
  Finset.sum_hom_rel (r := fun (k : Nat) (z : Int) => z = k) rfl
    fun i k z same => by rw [same, Int.natCast_add]

theorem holds_start {s : State n} (tidy : Tidy s) :
    Holds ⟨s.ref, s.ftable, s.cwd⟩ false [] [] s :=
  ⟨tidy.inOp, fun i => by simp [tidy.locked i], fun i => by simp, rfl, rfl⟩

/-- Whatever the file system answers, a call never uses a transaction in a wrong way, and when it
returns it has ended its transaction and unlocked every inode, and each inode's references have
changed with its open files and current directories. -/
theorem calls_leave_nothing (c : Sys n) (s : State n) (tidy : Tidy s) :
    perform c s ≠ .error .misuse ∧ ∀ r t, perform c s = .ok (r, t) → Tidy t ∧
      ∀ i, t.ref i - users t.ftable t.cwd i = s.ref i - users s.ftable s.cwd i := by
  have done := perform_done (b := ⟨s.ref, s.ftable, s.cwd⟩) c tidy.clean s (holds_start tidy)
  constructor
  · intro misuse
    rw [misuse] at done
    exact done rfl
  · intro r t returned
    rw [returned] at done
    obtain ⟨b', settles, holds⟩ := done
    have each (i : Ip) : t.ref i - users t.ftable t.cwd i = s.ref i - users s.ftable s.cwd i := by
      have ref := holds.ref i
      rw [List.count_nil] at ref
      rw [holds.ftable, holds.cwd, ref]
      have same := settles.ref i
      simp only at same
      omega
    refine ⟨⟨holds.inOp, fun i => ?_, ?_, ?_⟩, each⟩
    · have free := holds.locked i
      simpa using free
    · rw [holds.ftable]
      exact settles.clean tidy.clean
    · have sums : ∑ i, (t.ref i - users t.ftable t.cwd i) =
          ∑ i, (s.ref i - users s.ftable s.cwd i) := Finset.sum_congr rfl fun i _ => each i
      rw [Finset.sum_sub_distrib, Finset.sum_sub_distrib] at sums
      have before := tidy.ref
      have users_s := sum_users s
      have users_t := sum_users t
      rw [cast_sum] at sums
      rw [cast_sum] at sums
      omega

/-- All processes in one directory, and nothing open. -/
def atHome (n : Nat) (ip : Ip) (answers : List Nat) : State n :=
  ⟨update (fun _ => 0) ip n, fun _ => false, false, fun _ => ⟨.none, 0, ip⟩, fun _ => ip, answers⟩

theorem tidy_atHome (n : Nat) (ip : Ip) (answers : List Nat) : Tidy (atHome n ip answers) := by
  refine ⟨rfl, fun _ => rfl, fun _ _ => rfl, ?_⟩
  have none : references (atHome n ip answers) = n := by simp [references, atHome, File.opened]
  have others (i : Ip) (other : i ≠ ip) : (atHome n ip answers).ref i = 0 := by
    simp [atHome, update_of_ne other]
  rw [none, Finset.sum_eq_single ip (fun i _ => others i) (by simp)]
  simp [atHome]

def gives (r : Int) : Except Stop (Int × State n) → Bool
  | .ok (r', _) => r' = r
  | .error _ => false

theorem exists_of_gives {r : Int} {result : Except Stop (Int × State n)}
    (h : gives r result = true) : ∃ t, result = .ok (r, t) := by
  cases result with
  | error e => cases h
  | ok out =>
    obtain ⟨r', t⟩ := out
    have same : r' = r := by simpa [gives] using h
    exact ⟨t, by rw [same]⟩

/-- `open` of a file in the current directory, after a walk of one round. -/
theorem calls_leave_nothing_opened : ∃ t,
    perform (.open 0 ⟨false, 1⟩ false) (atHome 1 1 [0, 0, 0, 0, 1, 0, 2, 0]) = .ok (0, t) ∧
      Tidy t := by
  obtain ⟨t, returned⟩ := @exists_of_gives 1 0 (perform
    (.open 0 ⟨false, 1⟩ false) (atHome 1 1 [0, 0, 0, 0, 1, 0, 2, 0])) (by decide +kernel)
  exact ⟨t, returned, ((calls_leave_nothing _ _ (tidy_atHome 1 1 _)).2 0 t returned).1⟩

end CallLedgers
