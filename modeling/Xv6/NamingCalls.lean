import Xv6.FileReferences
import Xv6.InodeCreation
import Xv6.Lib.EventRuns

/-!
# What each call does to names

Every system call keeps the inodes, their names and the references to them
consistent, as long as it gives no name in a directory that has been removed,
no link count passes its largest value and new inodes have numbers allotted for them.
-/

namespace NamingCalls
open DirectoryCalls FileReferences Function InodeCreation InodeReferences LinkCounts Outcomes

variable {n m : Nat} {w : Allotment n} {s t : State n m} {p : Fin (m + 1)} {r : Int}

section Open

variable {ip : Inum n} {omode : BitVec 32}

theorem openInode_ok {path : Path} {room : Bool} {r : Option (Inum n)} (cons : Consistent w s)
    (namable : omode &&& O_CREATE ≠ 0 → Namable s p path)
    (allotted : omode &&& O_CREATE ≠ 0 → Allotted w s p path .file)
    (h : openInode p path omode room (begin_op s) = .ok (r, t)) :
    RefsAgree w t r.toList [] ∧ t.ftable = s.ftable ∧ t.proc = s.proc ∧
      ∀ i, r = some i → (t.dinode i).type ≠ .free := by
  unfold openInode at h
  split at h
  · rename_i creates
    exact create_ok (s := begin_op s) cons.inodes (by simp) (namable creates) (allotted creates) h
  · have settled := cons.inodes.settled
    obtain ⟨⟨r₁, s₁⟩, walk, rest⟩ := bind_eq_ok.mp h
    obtain ⟨-, quiet₁, inv₁⟩ := namei_ok (s := begin_op s) cons.inodes settled walk
    cases r₁ with
    | none =>
      cases rest
      exact ⟨inv₁, quiet₁.ftable, quiet₁.proc, fun i same => by cases same⟩
    | some ip =>
      obtain ⟨s₂, lock, rest⟩ := bind_eq_ok.mp rest
      obtain ⟨quiet₂, inv₂, typed, -⟩ := ilock_ok inv₁ lock
      have inv₂ : RefsAgree w s₂ [ip] [] := .of_quiet inv₂ quiet₂
      have quiet := quiet₁.trans quiet₂
      split at rest
      · obtain ⟨s₃, put, same⟩ := bind_eq_ok.mp rest
        cases same
        obtain ⟨inv₃, ftable, proc, -⟩ := iunlockput_ok inv₂ put
        exact ⟨.of_same inv₃ ftable proc, ftable.trans quiet.ftable, proc.trans quiet.proc,
          fun i same => by cases same⟩
      · cases rest
        refine ⟨inv₂, quiet.ftable, quiet.proc, ?_⟩
        rintro _ ⟨⟩
        rwa [quiet₂.dinode]

theorem filealloc_ok {f : Fin NFILE} (h : filealloc s = some (f, t)) :
    (s.ftable f).ref = 0 ∧ t = s.setFile f { s.ftable f with ref := 1 } := by
  obtain ⟨g, found, same⟩ := Option.map_eq_some_iff.mp h
  cases same
  exact ⟨by simpa using List.find?_some found, rfl⟩

theorem fdalloc_ok {f : Fin NFILE} {fd : Fin NOFILE} (h : fdalloc p f s = some (fd, t)) :
    (s.proc p).ofile fd = none ∧ t = s.setOfile p fd (some f) := by
  obtain ⟨g, found, same⟩ := Option.map_eq_some_iff.mp h
  cases same
  exact ⟨by simpa using List.find?_some found, rfl⟩

/-- A file without a descriptor is given back as it was. -/
theorem fileclose_unused {f : Fin NFILE} (files : Files s.ftable s.proc [])
    (unused : (s.ftable f).ref = 0)
    (h : fileclose f (s.setFile f { s.ftable f with ref := 1 }) = .ok t) : t = s := by
  have closed := (files.closed f).mp unused
  simp [fileclose, State.setFile, closed] at h
  subst h
  have same : (⟨.none, 0, (s.ftable f).readable, (s.ftable f).writable, (s.ftable f).ip,
      (s.ftable f).off, (s.ftable f).major⟩ : File n) = s.ftable f := by
    rw [← closed, ← unused]
  rw [same, update_eq_self]

/-- The opened file takes over the reference of the call. -/
theorem opened_ok {f : Fin NFILE} {fd : Fin NOFILE} {x : File n} (cons : Files s.ftable s.proc [])
    (gone : Gone s.proc) (inv : RefsAgree w s [ip] []) (typed : (s.dinode ip).type ≠ .free)
    (alive : (s.proc p).cwd ≠ none) (unused : (s.ftable f).ref = 0)
    (free : (s.proc p).ofile fd = none) (ref : x.ref = 1) (opened : x.type ≠ .none)
    (here : x.ip = ip) : Consistent w ((s.setOfile p fd (some f)).setFile f x) := by
  have closed := (cons.closed f).mp unused
  have changeF := users_setFile s f x
  have same := users_setOfile (s.setFile f x) p fd (some f)
  refine ⟨?_, ⟨fun g => ?_, ?_⟩, ?_⟩
  · have users : users ((s.setOfile p fd (some f)).setFile f x).ftable
        ((s.setOfile p fd (some f)).setFile f x).proc = users (s.setFile f x).ftable s.proc := same
    unfold RefsAgree
    rw [users]
    refine inv.hand (fun i => ?_) fun i more => ?_
    · have change := changeF i
      simp only [fileUse, closed, opened, here, ne_eq, not_true, not_false_eq_true, false_and,
        true_and, if_false] at change
      rw [List.count_singleton, List.count_nil]
      simp only [beq_iff_eq]
      omega
    · have change := changeF i
      simp only [fileUse, closed, opened, here, ne_eq, not_true, not_false_eq_true, false_and,
        true_and, if_false] at change
      have same : ip = i := by
        by_contra away
        rw [if_neg away] at change
        omega
      rwa [← same]
  · have change := holders_setOfile s p fd (some f) g
    have refs := cons.refs g
    rw [free] at change
    simp only [reduceCtorEq, if_false, Option.some.injEq, List.count_nil] at change refs
    show (update s.ftable f x g).ref = holders (s.setOfile p fd (some f)).proc g + 0
    rcases eq_or_ne g f with rfl | other
    · rw [update_self]
      rw [if_pos rfl] at change
      omega
    · rw [update_of_ne other]
      rw [if_neg other.symm] at change
      omega
  · refine (forall_update_iff s.ftable fun _ y => y.ref = 0 ↔ y.type = .none).mpr
      ⟨iff_of_false (by omega) opened, fun g _ => cons.closed g⟩
  · intro q noCwd fd'
    have was : (s.proc q).cwd = none := (cwd_setOfile s p fd (some f) q).symm.trans noCwd
    have other : q ≠ p := by
      rintro rfl
      exact alive was
    show ((s.setOfile p fd (some f)).proc q).ofile fd' = none
    simp only [State.setOfile, State.setProc, update_of_ne other]
    exact gone q was fd'

theorem openFile_ok (files : Files s.ftable s.proc []) (gone : Gone s.proc)
    (inv : RefsAgree w s [ip] []) (typed : (s.dinode ip).type ≠ .free)
    (alive : (s.proc p).cwd ≠ none) (h : openFile p ip omode s = .ok (r, t)) : Consistent w t := by
  have given : ∀ {t' : State n m}, iunlockput ip s = .ok t' → Consistent w (end_op t') := by
    intro t' put
    obtain ⟨inv, ftable, proc, -⟩ := iunlockput_ok inv put
    refine ⟨RefsAgree.of_same inv ftable proc, ?_, ?_⟩
    · show Files t'.ftable t'.proc []
      rwa [ftable, proc]
    · show Gone t'.proc
      rwa [proc]
  simp only [openFile] at h
  split at h
  · obtain ⟨t', put, same⟩ := bind_eq_ok.mp h
    cases same
    exact given put
  · split at h
    · obtain ⟨t', put, same⟩ := bind_eq_ok.mp h
      cases same
      exact given put
    · rename_i f s₁ alloc
      obtain ⟨unused, rfl⟩ := filealloc_ok alloc
      split at h
      · obtain ⟨s₂, close, rest⟩ := bind_eq_ok.mp h
        obtain rfl := fileclose_unused files unused close
        obtain ⟨t', put, same⟩ := bind_eq_ok.mp rest
        cases same
        exact given put
      · rename_i fd s₂ allocFd
        obtain ⟨free, rfl⟩ := fdalloc_ok allocFd
        obtain ⟨s₃, unlock, same⟩ := bind_eq_ok.mp h
        cases same
        set x := openedFile omode ip (s.dinode ip) { s.ftable f with ref := 1 } with hx
        have state : ((s.setFile f { s.ftable f with ref := 1 }).setOfile p fd (some f)).setFile f
            (openedFile omode ip (s.dinode ip)
              (((s.setFile f { s.ftable f with ref := 1 }).setOfile p fd (some f)).ftable f))
            = (s.setOfile p fd (some f)).setFile f x := by
          simp [State.setFile, State.setOfile, State.setProc, hx]
        rw [state] at unlock
        have opened : x.type ≠ .none := by
          rw [hx, openedFile]
          split <;> simp
        have cons := opened_ok files gone inv typed alive unused free (x := x) rfl opened rfl
        obtain ⟨quiet, inv⟩ := iunlock_ok cons.inodes unlock
        have inv : RefsAgree w s₃ [] [] := .of_quiet inv quiet
        exact cons.of_inodes (t := end_op s₃) inv quiet.ftable quiet.proc

theorem sys_open_ok {path : Option Path} {room : Bool} (cons : Consistent w s)
    (alive : (s.proc p).cwd ≠ none)
    (namable : ∀ path', path = some path' → omode &&& O_CREATE ≠ 0 → Namable s p path')
    (allotted : ∀ path', path = some path' → omode &&& O_CREATE ≠ 0 → Allotted w s p path' .file)
    (h : sys_open p path omode room s = .ok (r, t)) : Consistent w t := by
  cases path with
  | none =>
    cases h
    exact cons
  | some path =>
    obtain ⟨⟨r₁, s₁⟩, look, rest⟩ := bind_eq_ok.mp h
    obtain ⟨inv, ftable, proc, typed⟩ :=
      openInode_ok cons (namable path rfl) (allotted path rfl) look
    cases r₁ with
    | none =>
      cases rest
      exact cons.of_inodes (t := end_op s₁) inv ftable proc
    | some ip =>
      refine openFile_ok ?_ ?_ inv (typed ip rfl) ?_ rest
      · rw [ftable, proc]
        exact cons.files
      · rw [proc]
        exact cons.gone
      · rwa [proc]

end Open

/-- A call that gives back the only inode it holds leaves every reference accounted for. -/
theorem given_back {s₁ s₂ : State n m} {ip : Inum n} (cons : Consistent w s)
    (inv : RefsAgree w s₁ [ip] []) (ftable : s₁.ftable = s.ftable) (proc : s₁.proc = s.proc)
    (put : iunlockput ip s₁ = .ok s₂) : Consistent w (end_op s₂) := by
  obtain ⟨inv, ftable', proc', -⟩ := iunlockput_ok inv put
  exact cons.of_inodes (t := end_op s₂) (RefsAgree.of_same inv ftable' proc')
    (ftable'.trans ftable) (proc'.trans proc)

theorem makeInode_ok {path : Option Path} {type : InodeType} {major minor : BitVec 16}
    {roomIp roomDp : Bool} (cons : Consistent w s) (typed : type ≠ .free)
    (namable : ∀ path', path = some path' → Namable s p path')
    (allotted : ∀ path', path = some path' → Allotted w s p path' type)
    (h : makeInode p path type major minor roomIp roomDp s = .ok (r, t)) : Consistent w t := by
  cases path with
  | none =>
    cases h
    exact cons.of_inodes (t := end_op (begin_op s)) cons.inodes rfl rfl
  | some path =>
    obtain ⟨⟨r₁, s₁⟩, make, rest⟩ := bind_eq_ok.mp h
    obtain ⟨inv, ftable, proc, -⟩ := create_ok (s := begin_op s) cons.inodes typed
      (namable path rfl) (allotted path rfl) make
    cases r₁ with
    | none =>
      cases rest
      exact cons.of_inodes (t := end_op s₁) inv ftable proc
    | some ip =>
      obtain ⟨s₂, put, same⟩ := bind_eq_ok.mp rest
      cases same
      exact given_back cons inv ftable proc put

theorem sys_chdir_ok {path : Option Path} (cons : Consistent w s)
    (h : sys_chdir p path s = .ok (r, t)) : Consistent w t := by
  cases path with
  | none =>
    cases h
    exact cons.of_inodes (t := end_op (begin_op s)) cons.inodes rfl rfl
  | some path =>
    have settled := cons.inodes.settled
    obtain ⟨⟨r₁, s₁⟩, walk, rest⟩ := bind_eq_ok.mp h
    obtain ⟨-, quiet₁, inv₁⟩ := namei_ok (s := begin_op s) cons.inodes settled walk
    cases r₁ with
    | none =>
      cases rest
      exact cons.of_inodes (t := end_op s₁) inv₁ quiet₁.ftable quiet₁.proc
    | some ip =>
      obtain ⟨s₂, lock, rest⟩ := bind_eq_ok.mp rest
      obtain ⟨quiet₂, inv₂, typed, -⟩ := ilock_ok inv₁ lock
      have inv₂ : RefsAgree w s₂ [ip] [] := .of_quiet inv₂ quiet₂
      have quiet := quiet₁.trans quiet₂
      split at rest
      · obtain ⟨s₃, put, same⟩ := bind_eq_ok.mp rest
        cases same
        exact given_back cons inv₂ quiet.ftable quiet.proc put
      · obtain ⟨s₃, unlock, rest⟩ := bind_eq_ok.mp rest
        obtain ⟨quiet₃, inv₃⟩ := iunlock_ok inv₂ unlock
        have inv₃ : RefsAgree w s₃ [ip] [] := .of_quiet inv₃ quiet₃
        have quiet := quiet.trans quiet₃
        have typed₃ : (s₃.dinode ip).type ≠ .free := by
          rwa [quiet₃.dinode, quiet₂.dinode]
        split at rest
        · cases rest
        · rename_i cwd here
          obtain ⟨s₄, put, same⟩ := bind_eq_ok.mp rest
          cases same
          have given : RefsAgree w (s₃.setProc p ⟨some ip, (s₃.proc p).ofile⟩) [cwd] [] :=
            refsAgree_setCwd [] (some ip) inv₃ here
              (fun i same => Option.some.inj same ▸ typed₃)
          have early : iput cwd (s₃.setProc p ⟨some ip, (s₃.proc p).ofile⟩)
              = .ok (s₄.setProc p ⟨some ip, (s₃.proc p).ofile⟩) := by
            rw [iput_setProc, put]
            rfl
          obtain ⟨inv₄, ftable, proc, -⟩ := iput_ok given early
          have state : (end_op s₄).setProc p { s₄.proc p with cwd := some ip }
              = end_op (s₄.setProc p ⟨some ip, (s₃.proc p).ofile⟩) := by
            rw [iput_proc put]
            rfl
          rw [state]
          have files : Files s₃.ftable s₃.proc [] := by
            rw [quiet.ftable, quiet.proc]
            exact cons.files
          have gone : Gone s₃.proc := by
            rw [quiet.proc]
            exact cons.gone
          refine ⟨RefsAgree.of_same inv₄ ftable proc, ?_, ?_⟩
          · show Files (s₄.setProc p ⟨some ip, (s₃.proc p).ofile⟩).ftable
              (s₄.setProc p ⟨some ip, (s₃.proc p).ofile⟩).proc []
            rw [ftable, proc]
            exact files_setCwd files
          · show Gone (s₄.setProc p ⟨some ip, (s₃.proc p).ofile⟩).proc
            rw [proc]
            exact gone_setCwd gone fun same => by cases same

section Link

variable {ip dp : Inum n} {name : Name}

/-- A file can be linked when its count is below the largest `short`, and the new name
is given in a directory that has not been removed. -/
def Linkable (s : State n m) (p : Fin (m + 1)) (old new : Path) : Prop :=
  ∀ ip name, resolve s false p old = some (ip, name) → (s.dinode ip).type ≠ .dir →
    (s.dinode ip).nlink ≠ 32767 ∧ Namable s p new

instance (s : State n m) (p : Fin (m + 1)) (old new : Path) : Decidable (Linkable s p old new) :=
  decidable_of_iff (∀ x ∈ resolve s false p old, (s.dinode x.1).type ≠ .dir →
      (s.dinode x.1).nlink ≠ 32767 ∧ Namable s p new)
    ⟨fun h ip name there => h (ip, name) there, fun h x there => h x.1 x.2 there⟩

/-- `dirlink` with a name that may be there already. -/
theorem dirlink_cases {u : Inum n → Nat} {held pending : List (Inum n)} {room : Bool}
    (inv : Refs w s.dinode s.itable u held pending) (settled : Settled s.dinode u)
    (h : dirlink room dp name ip s = .ok (r, t)) :
    (r < 0 ∧ Quiet s t ∧ Refs w t.dinode t.itable u held pending) ∨
      (r = 0 ∧ (s.dinode dp).type = .dir ∧ lookup (s.dinode dp).dirents name = none ∧
        (added ⟨ip, name⟩ (s.dinode dp).dirents).length ≤ MAXDIRENTS ∧
        t = s.setInode dp
          { s.dinode dp with dirents := added ⟨ip, name⟩ (s.dinode dp).dirents }) := by
  obtain ⟨⟨x, s'⟩, look, rest⟩ := bind_eq_ok.mp h
  obtain ⟨isDir, found, quiet, inv', -⟩ := dirlookup_ok inv look
  cases x with
  | some x =>
    obtain ⟨s₁, put, same⟩ := bind_eq_ok.mp rest
    cases same
    obtain ⟨quiet', inv'⟩ := iput_settled inv' (quiet.dinode ▸ settled) put
    exact .inl ⟨by decide, quiet.trans quiet', inv'⟩
  | none =>
    have few := (inv.sound.formed dp).few
    rcases dirlink_ok found.symm few h with ⟨failed, rfl⟩ | ⟨rfl, fits, rfl⟩
    · exact .inl ⟨failed, .refl _, inv⟩
    · exact .inr ⟨rfl, isDir, found.symm, fits, rfl⟩

/-- A failing `sys_link` takes its link back. -/
theorem linkBad_ok (inv : RefsAgree w s [ip] [ip]) (notDir : (s.dinode ip).type ≠ .dir)
    (h : linkBad ip s = .ok (r, t)) :
    RefsAgree w t [] [] ∧ t.ftable = s.ftable ∧ t.proc = s.proc := by
  obtain ⟨s₁, lock, rest⟩ := bind_eq_ok.mp h
  obtain ⟨quiet, inv₁, typed, -, table⟩ := ilock_ok inv lock
  have inv₁ : RefsAgree w s₁ [ip] [ip] := .of_quiet inv₁ quiet
  obtain ⟨s₂, put, same⟩ := bind_eq_ok.mp rest
  cases same
  have notDir₁ : (s₁.dinode ip).type ≠ .dir := quiet.dinode ▸ notDir
  have typed₁ : (s₁.dinode ip).type ≠ .free := quiet.dinode ▸ typed
  have real : ip ≠ 0 := by
    rintro rfl
    exact typed₁ inv₁.sound.unused
  have count := inv₁.sound.count ip real
  rw [List.count_singleton_self] at count
  have sound : Sound w (update s₁.dinode ip
      { s₁.dinode ip with nlink := (s₁.dinode ip).nlink - 1 }) [] := by
    refine inv₁.sound.replace (fun linked => notDir₁ linked.1) notDir₁
      (inv₁.sound.plain ip notDir₁) (fun isFree => absurd isFree typed₁)
      ((inv₁.sound.formed ip).relink notDir₁ _) real ?_ fun j away => ?_
    · have less := toInt_pred (k := (s₁.dinode ip).nlink) (by omega)
      simp only [List.count_nil, List.count_singleton_self]
      omega
    · simp [away.symm]
  have loaded : (s₁.itable ip).valid = true ∧ 0 < (s₁.itable ip).ref :=
    ⟨by rw [table, update_self], held_pos inv₁ (List.mem_singleton_self ip)⟩
  have given : RefsAgree w (s₁.setLinks ip ((s₁.dinode ip).nlink - 1)) [ip] [] :=
    ⟨sound, entered_change inv₁.entered rfl loaded⟩
  obtain ⟨inv₂, ftable, proc, -⟩ := iunlockput_ok given put
  have inv₂ : RefsAgree w s₂ [] [] := .of_same inv₂ ftable proc
  exact ⟨inv₂, ftable.trans quiet.ftable, proc.trans quiet.proc⟩

/-- The link that `sys_link` adds before there is a name for it. -/
theorem linkUp_ok (inv : RefsAgree w s [ip] []) (settled : Settled s.dinode (users s.ftable s.proc))
    (notDir : (s.dinode ip).type ≠ .dir) (typed : (s.dinode ip).type ≠ .free)
    (loaded : (s.itable ip).valid = true) (room : (s.dinode ip).nlink ≠ 32767) :
    RefsAgree w (s.setLinks ip ((s.dinode ip).nlink + 1)) [ip] [ip] ∧
      Settled (s.setLinks ip ((s.dinode ip).nlink + 1)).dinode (users s.ftable s.proc) := by
  have real : ip ≠ 0 := by
    rintro rfl
    exact typed inv.sound.unused
  have more := toInt_succ room
  have nonneg := inv.sound.links_nonneg real
  constructor
  · refine ⟨?_, entered_change inv.entered rfl ⟨loaded, held_pos inv (List.mem_singleton_self ip)⟩⟩
    refine inv.sound.replace (fun linked => notDir linked.1) notDir (inv.sound.plain ip notDir)
      (fun isFree => absurd isFree typed) ((inv.sound.formed ip).relink notDir _) real ?_
      fun j away => ?_
    · simp only [List.count_nil, List.count_singleton_self]
      omega
    · simp [away.symm]
  · refine (forall_update_iff s.dinode fun i d =>
      d.type ≠ .free → d.nlink = 0 → 0 < users s.ftable s.proc i).mpr
        ⟨fun _ zero => ?_, fun i _ => settled i⟩
    simp only at zero
    rw [eq_zero_iff.mp zero] at more
    omega

/-- The new name, or the link taken back. -/
theorem linkName_ok {room : Bool} (inv : RefsAgree w s [dp, ip] [ip])
    (settled : Settled s.dinode (users s.ftable s.proc)) (notDir : (s.dinode ip).type ≠ .dir)
    (links : (s.dinode dp).type = .dir → lookup (s.dinode dp).dirents name = none →
      (s.dinode dp).nlink ≠ 0)
    (h : linkName room dp ip name s = .ok (r, t)) :
    RefsAgree w t [] [] ∧ t.ftable = s.ftable ∧ t.proc = s.proc := by
  obtain ⟨s₁, lock, rest⟩ := bind_eq_ok.mp h
  obtain ⟨quiet₁, inv₁, -, -, table⟩ := ilock_ok inv lock
  have inv₁ : RefsAgree w s₁ [dp, ip] [ip] := .of_quiet inv₁ quiet₁
  have settled₁ : Settled s₁.dinode (users s₁.ftable s₁.proc) := by
    rw [quiet₁.dinode, quiet₁.users]
    exact settled
  obtain ⟨⟨r₂, s₂⟩, link, rest⟩ := bind_eq_ok.mp rest
  obtain ⟨s₃, put, done⟩ := bind_eq_ok.mp rest
  rcases dirlink_cases inv₁ settled₁ link with
    ⟨failed, quiet₂, inv₂⟩ | ⟨zero, isDir, unnamed, few, new⟩
  · have inv₂ : RefsAgree w s₂ [dp, ip] [ip] := .of_quiet inv₂ quiet₂
    obtain ⟨quiet₃, inv₃⟩ := iunlockput_settled inv₂
      (by rw [quiet₂.dinode, quiet₂.users]; exact settled₁) put
    have inv₃ : RefsAgree w s₃ [ip] [ip] := .of_quiet inv₃ quiet₃
    have quiet := (quiet₁.trans quiet₂).trans quiet₃
    rw [if_pos failed] at done
    obtain ⟨inv, ftable, proc⟩ := linkBad_ok inv₃ (by rw [quiet.dinode]; exact notDir) done
    exact ⟨inv, ftable.trans quiet.ftable, proc.trans quiet.proc⟩
  · subst zero new
    rw [if_neg (Int.lt_irrefl 0)] at done
    obtain ⟨s₄, put', same⟩ := bind_eq_ok.mp done
    cases same
    rw [quiet₁.dinode] at isDir unnamed few
    have linked : Linked (s₁.dinode dp) := by
      rw [quiet₁.dinode]
      exact ⟨isDir, links isDir unnamed⟩
    have loaded : (s₁.itable dp).valid = true ∧ 0 < (s₁.itable dp).ref :=
      ⟨by rw [table, update_self], held_pos inv₁ (List.mem_cons_self ..)⟩
    have given : RefsAgree w (s₁.setInode dp { s₁.dinode dp with
        dirents := added ⟨ip, name⟩ (s₁.dinode dp).dirents }) [dp, ip] [] :=
      ⟨inv₁.sound.addName (quiet₁.dinode ▸ notDir) linked (quiet₁.dinode ▸ unnamed)
        (quiet₁.dinode ▸ few),
        entered_change inv₁.entered rfl loaded⟩
    obtain ⟨inv₃, ftable₃, proc₃, -⟩ := iunlockput_ok given put
    have inv₃ : RefsAgree w s₃ [ip] [] := .of_same inv₃ ftable₃ proc₃
    obtain ⟨inv₄, ftable₄, proc₄, -⟩ := iput_ok inv₃ put'
    have inv₄ : RefsAgree w s₄ [] [] := .of_same inv₄ ftable₄ proc₄
    exact ⟨inv₄, ftable₄.trans (ftable₃.trans quiet₁.ftable), proc₄.trans (proc₃.trans quiet₁.proc)⟩

theorem sys_link_ok {old new : Option Path} {room : Bool} (cons : Consistent w s)
    (linkable : ∀ o w, old = some o → new = some w → Linkable s p o w)
    (h : sys_link p old new room s = .ok (r, t)) : Consistent w t := by
  cases old with
  | none =>
    cases h
    exact cons
  | some old =>
  cases new with
  | none =>
    cases h
    exact cons
  | some new =>
    have settled := cons.inodes.settled
    have linkable := linkable old new rfl rfl
    obtain ⟨⟨r₁, s₁⟩, walk, rest⟩ := bind_eq_ok.mp h
    obtain ⟨leads, quiet₁, inv₁⟩ := namei_ok (s := begin_op s) cons.inodes settled walk
    cases r₁ with
    | none =>
      cases rest
      exact cons.of_inodes (t := end_op s₁) inv₁ quiet₁.ftable quiet₁.proc
    | some ip =>
      obtain ⟨s₂, lock, rest⟩ := bind_eq_ok.mp rest
      obtain ⟨quiet₂, inv₂, typed, -, table⟩ := ilock_ok inv₁ lock
      have inv₂ : RefsAgree w s₂ [ip] [] := .of_quiet inv₂ quiet₂
      have quiet := quiet₁.of_begin.trans quiet₂
      split at rest
      · obtain ⟨s₃, put, same⟩ := bind_eq_ok.mp rest
        cases same
        exact given_back cons inv₂ quiet.ftable quiet.proc put
      · rename_i notDir
        have typed₂ : (s₂.dinode ip).type ≠ .free := quiet₂.dinode ▸ typed
        have here : ∃ name, resolve s false p old = some (ip, name) := by
          obtain ⟨⟨ip', name⟩, there, same⟩ := Option.map_eq_some_iff.mp leads.symm
          cases same
          exact ⟨name, there⟩
        obtain ⟨name₀, here⟩ := here
        obtain ⟨room, namable⟩ := linkable ip name₀ here (quiet.dinode ▸ notDir)
        obtain ⟨up, settledUp⟩ := linkUp_ok inv₂ (by rw [quiet.dinode, quiet.users]; exact settled)
          notDir typed₂ (by rw [table, update_self]) (by rw [quiet.dinode]; exact room)
        obtain ⟨s₃, unlock, rest⟩ := bind_eq_ok.mp rest
        obtain ⟨quiet₃, inv₃⟩ := iunlock_ok up unlock
        have inv₃ : RefsAgree w s₃ [ip] [ip] := .of_quiet inv₃ quiet₃
        have settled₃ : Settled s₃.dinode (users s₃.ftable s₃.proc) := by
          rw [quiet₃.dinode, quiet₃.users]
          exact settledUp
        obtain ⟨⟨r₄, s₄⟩, walk, rest⟩ := bind_eq_ok.mp rest
        obtain ⟨leads, quiet₄, inv₄⟩ := nameiparent_ok inv₃ settled₃ walk
        -- the inodes are those of `s`, but for the link count of `ip`
        have disk₄ : s₄.dinode = (s₂.setLinks ip ((s₂.dinode ip).nlink + 1)).dinode :=
          quiet₄.dinode.trans quiet₃.dinode
        have ftable₄ : s₄.ftable = s.ftable :=
          quiet₄.ftable.trans (quiet₃.ftable.trans quiet.ftable)
        have proc₄ : s₄.proc = s.proc := quiet₄.proc.trans (quiet₃.proc.trans quiet.proc)
        have kind : ∀ i, (s₄.dinode i).type = (s.dinode i).type ∧
            (s₄.dinode i).dirents = (s.dinode i).dirents := by
          rw [disk₄, ← quiet.dinode]
          exact (forall_update_iff s₂.dinode fun i d =>
            d.type = (s₂.dinode i).type ∧ d.dirents = (s₂.dinode i).dirents).mpr
              ⟨⟨rfl, rfl⟩, fun _ _ => ⟨rfl, rfl⟩⟩
        have notDir₄ : (s₄.dinode ip).type ≠ .dir := by
          rw [(kind ip).1, ← quiet.dinode]
          exact notDir
        suffices kept : RefsAgree w t [] [] ∧ t.ftable = s₄.ftable ∧ t.proc = s₄.proc from
          cons.of_inodes kept.1 (kept.2.1.trans ftable₄) (kept.2.2.trans proc₄)
        cases r₄ with
        | none => exact linkBad_ok inv₄ notDir₄ rest
        | some x =>
          obtain ⟨dp, name⟩ := x
          have leads : resolve s true p new = some (dp, name) := by
            rw [leads, resolve, resolve, quiet₃.proc, ← quiet₄.dinode]
            have procs : (s₂.setLinks ip ((s₂.dinode ip).nlink + 1)).proc = s.proc := quiet.proc
            have walk := fun i => follow_congr (fun j => (kind j).1) (fun j => (kind j).2) true
              (new.length + 1) i new
            simp only [walk, procs]
          refine linkName_ok inv₄ (by rw [quiet₄.dinode, quiet₄.users]; exact settled₃) notDir₄
            (fun isDir unnamed => ?_) rest
          have other : dp ≠ ip := by
            rintro rfl
            exact notDir₄ isDir
          have same : s₄.dinode dp = s.dinode dp := by
            rw [disk₄, ← quiet.dinode]
            exact update_of_ne other ..
          rw [same] at unnamed ⊢
          exact namable dp name leads unnamed

end Link

section Unlink

variable {ip dp : Inum n} {name : Name} {k : Nat}

theorem iunlock_setInode {d : Dinode n} :
    iunlock dp (s.setInode ip d) = (iunlock dp s).map fun t => t.setInode ip d := by
  simp only [iunlock, apply_ite (Except.map _)]
  rfl

theorem iput_setInode {d : Dinode n} (other : dp ≠ ip) :
    iput dp (s.setInode ip d) = (iput dp s).map fun t => t.setInode ip d := by
  have same : (s.setInode ip d).dinode dp = s.dinode dp := update_of_ne other ..
  have swap : ∀ e, ((s.setInode ip d).setInode dp e) = (s.setInode dp e).setInode ip d := by
    intro e
    simp only [State.setInode, update_comm other]
  simp only [iput, same, swap, apply_ite (Except.map _)]
  rfl

theorem iunlockput_dinode (h : iunlockput dp s = .ok t) (other : ip ≠ dp) :
    t.dinode ip = s.dinode ip := by
  obtain ⟨s₁, unlock, put⟩ := bind_eq_ok.mp h
  have same : s₁.dinode = s.dinode := by
    simp only [iunlock] at unlock
    split at unlock
    · cases unlock
    · cases unlock
      rfl
  rw [← same]
  simp only [iput] at put
  split at put
  · split at put
    · cases put
    · cases put
      exact update_of_ne other ..
  · cases put
    rfl

/-- Giving up `dp` and changing `ip` can take place in either order. -/
theorem iunlockput_setInode {d : Dinode n} (other : dp ≠ ip) :
    iunlockput dp (s.setInode ip d) = (iunlockput dp s).map fun t => t.setInode ip d := by
  unfold iunlockput
  rw [iunlock_setInode]
  cases iunlock dp s with
  | error e => rfl
  | ok t => exact iput_setInode other

theorem unlinkBad_ok (inv : RefsAgree w s [dp] []) (h : unlinkBad dp s = .ok (r, t)) :
    RefsAgree w t [] [] ∧ t.ftable = s.ftable ∧ t.proc = s.proc := by
  obtain ⟨s₁, put, same⟩ := bind_eq_ok.mp h
  cases same
  obtain ⟨inv₁, ftable, proc, -⟩ := iunlockput_ok inv put
  have inv₁ : RefsAgree w s₁ [] [] := .of_same inv₁ ftable proc
  exact ⟨inv₁, ftable, proc⟩

/-- The disk once the name and its link are gone. -/
theorem sound_unlinked {disk : Disk n} (sound : Sound w disk []) (isDir : (disk dp).type = .dir)
    (found : lookup (disk dp).dirents name = some (k, ip)) (notDot : name ≠ dot)
    (notDotdot : name ≠ dotdot) (other : ip ≠ dp) (typed : (disk ip).type ≠ .free)
    (links : 1 ≤ (disk ip).nlink.toInt)
    (bare : (disk ip).type = .dir → isdirempty (disk ip) = true) :
    Sound w (update (update disk ip { disk ip with nlink := (disk ip).nlink - 1 }) dp
      { disk dp with
        dirents := (disk dp).dirents.set k ⟨0, []⟩
        nlink := if (disk ip).type = .dir then (disk dp).nlink - 1 else (disk dp).nlink }) [] := by
  by_cases dir : (disk ip).type = .dir
  · rw [if_pos dir]
    refine sound.dropDirName isDir found notDot notDotdot dir links (fun de there => ?_) other
    have all := bare dir
    simp only [isdirempty, List.all_eq_true, decide_eq_true_eq] at all
    exact all de there
  · rw [if_neg dir, update_comm other]
    have real : ip ≠ 0 := by
      rintro rfl
      exact typed sound.unused
    have same : update disk dp { disk dp with dirents := (disk dp).dirents.set k ⟨0, []⟩ } ip
        = disk ip := update_of_ne other ..
    refine (sound.dropName isDir found notDot notDotdot dir).replace ?_ dir (sound.plain ip dir)
      (fun isFree => absurd isFree typed) ((sound.formed ip).relink dir _) real ?_ fun j away => ?_
    · rw [same]
      exact fun linked => dir linked.1
    · have less := toInt_pred links
      rw [same]
      simp only [List.count_nil, List.count_singleton_self]
      omega
    · simp [away.symm]

theorem unlinkEntry_ok (inv : RefsAgree w s [ip, dp] []) (other : ip ≠ dp)
    (isDir : (s.dinode dp).type = .dir)
    (found : lookup (s.dinode dp).dirents name = some (k, ip)) (notDot : name ≠ dot)
    (notDotdot : name ≠ dotdot) (typed : (s.dinode ip).type ≠ .free)
    (links : 1 ≤ (s.dinode ip).nlink.toInt)
    (bare : (s.dinode ip).type = .dir → isdirempty (s.dinode ip) = true)
    (loadedIp : (s.itable ip).valid = true) (loadedDp : (s.itable dp).valid = true)
    (h : unlinkEntry dp ip k s = .ok (r, t)) :
    RefsAgree w t [] [] ∧ t.ftable = s.ftable ∧ t.proc = s.proc := by
  set x : Dinode n := { s.dinode ip with nlink := (s.dinode ip).nlink - 1 } with hx
  set y : Dinode n := { s.dinode dp with
    dirents := (s.dinode dp).dirents.set k ⟨0, []⟩
    nlink := if (s.dinode ip).type = .dir then (s.dinode dp).nlink - 1 else (s.dinode dp).nlink }
    with hy
  obtain ⟨s₁, put, rest⟩ := bind_eq_ok.mp h
  obtain ⟨s₂, put', same⟩ := bind_eq_ok.mp rest
  cases same
  have entry : (if ((s.setInode dp { s.dinode dp with
        dirents := (s.dinode dp).dirents.set k ⟨0, []⟩ }).dinode ip).type = .dir then
      (s.setInode dp { s.dinode dp with dirents := (s.dinode dp).dirents.set k ⟨0, []⟩ }).setLinks
        dp (((s.setInode dp { s.dinode dp with
          dirents := (s.dinode dp).dirents.set k ⟨0, []⟩ }).dinode dp).nlink - 1)
      else s.setInode dp { s.dinode dp with dirents := (s.dinode dp).dirents.set k ⟨0, []⟩ })
      = s.setInode dp y := by
    simp only [State.setInode, State.setLinks, update_of_ne other, update_self, update_idem, hy]
    split <;> rfl
  rw [entry] at put
  have early : iunlockput dp ((s.setInode dp y).setInode ip x) = .ok (s₁.setInode ip x) := by
    rw [iunlockput_setInode other.symm, put]
    rfl
  have kept : s₁.dinode ip = s.dinode ip := by
    rw [iunlockput_dinode put other]
    exact update_of_ne other ..
  have last : s₁.setLinks ip ((s₁.dinode ip).nlink - 1) = s₁.setInode ip x := by
    rw [State.setLinks, kept]
  rw [last] at put'
  have given : RefsAgree w ((s.setInode dp y).setInode ip x) [dp, ip] [] := by
    constructor
    · show Sound w (update (update s.dinode dp y) ip x) []
      rw [update_comm other.symm]
      exact sound_unlinked inv.sound isDir found notDot notDotdot other typed links bare
    · have swapped := inv.swap
      have first := entered_change swapped.entered (i := dp) (d := y) rfl
        ⟨loadedDp, held_pos swapped (List.mem_cons_self ..)⟩
      refine entered_change first ?_ ⟨loadedIp, held_pos inv (List.mem_cons_self ..)⟩
      rw [update_of_ne other]
  obtain ⟨inv₁, ftable₁, proc₁, -⟩ := iunlockput_ok given early
  have inv₁ : RefsAgree w (s₁.setInode ip x) [ip] [] := .of_same inv₁ ftable₁ proc₁
  obtain ⟨inv₂, ftable₂, proc₂, -⟩ := iunlockput_ok inv₁ put'
  have inv₂ : RefsAgree w s₂ [] [] := .of_same inv₂ ftable₂ proc₂
  exact ⟨inv₂, ftable₂.trans ftable₁, proc₂.trans proc₁⟩

theorem sys_unlink_ok {path : Option Path} (cons : Consistent w s)
    (h : sys_unlink p path s = .ok (r, t)) : Consistent w t := by
  cases path with
  | none =>
    cases h
    exact cons
  | some path =>
    have settled := cons.inodes.settled
    obtain ⟨⟨r₁, s₁⟩, walk, rest⟩ := bind_eq_ok.mp h
    obtain ⟨-, quiet₁, inv₁⟩ := nameiparent_ok (s := begin_op s) cons.inodes settled walk
    cases r₁ with
    | none =>
      cases rest
      exact cons.of_inodes (t := end_op s₁) inv₁ quiet₁.ftable quiet₁.proc
    | some x =>
      obtain ⟨dp, name⟩ := x
      obtain ⟨s₂, lock, rest⟩ := bind_eq_ok.mp rest
      obtain ⟨quiet₂, inv₂, -, -, table₂⟩ := ilock_ok inv₁ lock
      have inv₂ : RefsAgree w s₂ [dp] [] := .of_quiet inv₂ quiet₂
      have quiet₂ := quiet₁.of_begin.trans quiet₂
      have ends : ∀ {s' : State n m}, Quiet s s' →
          RefsAgree w t [] [] ∧ t.ftable = s'.ftable ∧ t.proc = s'.proc → Consistent w t :=
        fun quiet kept =>
          cons.of_inodes kept.1 (kept.2.1.trans quiet.ftable) (kept.2.2.trans quiet.proc)
      split at rest
      · exact ends quiet₂ (unlinkBad_ok inv₂ rest)
      · rename_i proper
        obtain ⟨⟨r₃, s₃⟩, look, rest⟩ := bind_eq_ok.mp rest
        obtain ⟨isDir, found, quiet₃, inv₃, stays⟩ := dirlookup_ok inv₂ look
        cases r₃ with
        | none =>
          have inv₃ : RefsAgree w s₃ [dp] [] := .of_quiet inv₃ quiet₃
          exact ends (quiet₂.trans quiet₃) (unlinkBad_ok inv₃ rest)
        | some x =>
          obtain ⟨k, ip⟩ := x
          have inv₃ : RefsAgree w s₃ [ip, dp] [] := .of_quiet inv₃ quiet₃
          obtain ⟨s₄, lock', rest⟩ := bind_eq_ok.mp rest
          obtain ⟨quiet₄, inv₄, typed, unlocked, table₄⟩ := ilock_ok inv₃ lock'
          have inv₄ : RefsAgree w s₄ [ip, dp] [] := .of_quiet inv₄ quiet₄
          have quiet := (quiet₂.trans quiet₃).trans quiet₄
          -- `dp` is locked, so `ip`, which can still be locked, is another inode
          have other : ip ≠ dp := by
            rintro rfl
            have held := (stays ip).1
            rw [table₂, update_self, unlocked] at held
            cases held
          split at rest
          · cases rest
          · rename_i some
            have disk : s₄.dinode = s₂.dinode := quiet₄.dinode.trans quiet₃.dinode
            split at rest
            · obtain ⟨s₅, put, rest⟩ := bind_eq_ok.mp rest
              obtain ⟨inv₅, ftable, proc, -⟩ := iunlockput_ok inv₄ put
              have inv₅ : RefsAgree w s₅ [dp] [] := .of_same inv₅ ftable proc
              obtain ⟨inv, ftable', proc'⟩ := unlinkBad_ok inv₅ rest
              exact ends quiet ⟨inv, ftable'.trans ftable, proc'.trans proc⟩
            · rename_i removable
              have bare : (s₄.dinode ip).type = .dir → isdirempty (s₄.dinode ip) = true := by
                intro dir
                by_contra full
                exact removable ⟨dir, by simpa using full⟩
              have loadedDp : (s₄.itable dp).valid = true := by
                have kept := (stays dp).2 (held_pos inv₂ (List.mem_singleton_self dp))
                rw [table₄, update_of_ne other.symm, kept, table₂, update_self]
              refine ends quiet (unlinkEntry_ok inv₄ other (disk ▸ isDir) (disk ▸ found.symm)
                (fun same => proper (.inl same)) (fun same => proper (.inr same))
                (quiet₄.dinode ▸ typed) (by omega) bare (by rw [table₄, update_self]) loadedDp rest)

end Unlink

end NamingCalls
