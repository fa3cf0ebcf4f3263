import Xv6.NamingCalls

/-!
# Inodes without a name and without a user

Neither `create` nor `sys_link` looks at the link count of the directory in
which it gives a name. A directory that was removed while it was somebody's
current directory takes new names, and they are lost with it. Without such
calls, every inode that nobody uses has a name.
-/

namespace OrphanInodes
open DirectoryCalls EventRuns FileReferences Function InodeCreation InodeReferences LinkCounts
  NamingCalls Outcomes

variable {n m : Nat} {w : Allotment n} {s t : State n m}

/-- Some open file or current directory is the inode. -/
def InUse (s : State n m) (i : Inum n) : Prop :=
  (∃ p fd f, (s.proc p).ofile fd = some f ∧ (s.ftable f).ip = i) ∨ ∃ p, (s.proc p).cwd = some i

instance (s : State n m) (i : Inum n) : Decidable (InUse s i) := inferInstanceAs (Decidable (_ ∨ _))

/-- Some directory has an entry for the inode, other than "." and "..". -/
def Named (s : State n m) (i : Inum n) : Prop :=
  ∃ d, (s.dinode d).type = .dir ∧
    ∃ de ∈ (s.dinode d).dirents, de.inum = i ∧ de.name ≠ dot ∧ de.name ≠ dotdot

instance (s : State n m) (i : Inum n) : Decidable (Named s i) :=
  inferInstanceAs (Decidable (∃ _, _))

/-- Every inode that is allocated and not used has a name, the root apart. -/
def NoOrphans (s : State n m) : Prop :=
  ∀ i, (s.dinode i).type ≠ .free → i ≠ ROOTINO → ¬ InUse s i → Named s i

instance (s : State n m) : Decidable (NoOrphans s) := inferInstanceAs (Decidable (∀ _, _))

/-- The call gives no name in a directory that has been removed, and links no file with
a link count of 32767. -/
def Careful (s : State n m) : Call m → Prop
  | .open p (some path) omode _ => omode &&& O_CREATE ≠ 0 → Namable s p path
  | .mkdir p (some path) _ _ => Namable s p path
  | .mknod p (some path) _ _ _ => Namable s p path
  | .link p (some old) (some new) _ => Linkable s p old new
  | _ => True

instance (s : State n m) (c : Call m) : Decidable (Careful s c) := by
  unfold Careful
  split <;> infer_instance

/-- The numbers allotted let the call make an inode. -/
def Served (w : Allotment n) (s : State n m) : Call m → Prop
  | .open p (some path) omode _ => omode &&& O_CREATE ≠ 0 → Allotted w s p path .file
  | .mkdir p (some path) _ _ => Allotted w s p path .dir
  | .mknod p (some path) _ _ _ => Allotted w s p path .device
  | _ => True

/-- Any number may be that of a file. -/
def anyNumber : Allotment n := ⟨fun _ => True, fun _ => False⟩

theorem allotted_any (s : State n m) (p : Fin (m + 1)) (path : Path) (type : InodeType) :
    Allotted anyNumber s p path type := fun _ _ _ => ⟨fun _ => trivial, fun _ => id⟩

theorem served_any (s : State n m) (c : Call m) : Served anyNumber s c := by
  unfold Served
  split
  · exact fun _ => allotted_any s _ _ _
  · exact allotted_any s _ _ _
  · exact allotted_any s _ _ _
  · trivial

theorem step_consistent {c : Call m} (cons : Consistent w s) (careful : Careful s c)
    (served : Served w s c) (h : step s c = .ok t) : Consistent w t := by
  unfold step at h
  split at h
  · cases h
  · rename_i alive
    cases c with
    | «open» p path omode room =>
      obtain ⟨⟨r, t'⟩, done, rfl⟩ := map_eq_ok.mp h
      exact sys_open_ok cons alive (fun _ same creates => by subst same; exact careful creates)
        (fun _ same creates => by subst same; exact served creates) done
    | mkdir p path roomIp roomDp =>
      obtain ⟨⟨r, t'⟩, done, rfl⟩ := map_eq_ok.mp h
      exact makeInode_ok cons (by simp) (fun _ same => by subst same; exact careful)
        (fun _ same => by subst same; exact served) done
    | mknod p path major minor room =>
      obtain ⟨⟨r, t'⟩, done, rfl⟩ := map_eq_ok.mp h
      exact makeInode_ok cons (by simp) (fun _ same => by subst same; exact careful)
        (fun _ same => by subst same; exact served) done
    | link p old new room =>
      obtain ⟨⟨r, t'⟩, done, rfl⟩ := map_eq_ok.mp h
      exact sys_link_ok cons (fun _ _ o w => by subst o w; exact careful) done
    | unlink p path =>
      obtain ⟨⟨r, t'⟩, done, rfl⟩ := map_eq_ok.mp h
      exact sys_unlink_ok cons done
    | chdir p path =>
      obtain ⟨⟨r, t'⟩, done, rfl⟩ := map_eq_ok.mp h
      exact sys_chdir_ok cons done
    | close p fd =>
      obtain ⟨⟨r, t'⟩, done, rfl⟩ := map_eq_ok.mp h
      obtain ⟨files, inodes, gone⟩ := sys_close_ok cons.files cons.inodes cons.gone done
      exact ⟨inodes, files, gone⟩
    | exit p => exact exit_ok cons h
    | fork p np => exact fork_ok cons h

theorem boot_unlinked {i : Inum n} (other : i ≠ ROOTINO) :
    ¬ Linked ((boot : State n m).dinode i) := by
  simp [boot, other, Linked]

theorem boot_sound (soiled : ¬ w.clean ROOTINO) : Sound w (boot : State n m).dinode [] := by
  have root : (boot : State n m).dinode ROOTINO = rootDir := by simp [boot]
  have linked : Linked ((boot : State n m).dinode ROOTINO) := by
    rw [root]
    exact ⟨rfl, by simp [rootDir]⟩
  have named : ∀ i, named (boot : State n m).dinode i = 0 := by
    intro i
    refine Finset.sum_eq_zero fun d _ => ?_
    rcases eq_or_ne d ROOTINO with rfl | other
    · simp [names, root, rootDir, entries, tally]
    · exact names_unlinked (boot_unlinked other) i
  have subdirs : ∀ i, subdirs (boot : State n m).dinode i = if ROOTINO = i then 1 else 0 := by
    intro i
    rw [LinkCounts.subdirs, Finset.sum_eq_single ROOTINO]
    · have parent : parentOf ((boot : State n m).dinode ROOTINO) = ROOTINO := by
        rw [root]
        rfl
      simp [backs, linked, parent]
    · exact fun d _ other => backs_unlinked (boot_unlinked other) i
    · simp
  constructor
  case count =>
    intro i _
    rw [named, subdirs]
    rcases eq_or_ne i ROOTINO with rfl | other
    · rw [root]
      rfl
    · simp [boot, other, other.symm]
  case free =>
    intro i isFree
    rcases eq_or_ne i ROOTINO with rfl | other
    · rw [root] at isFree
      cases isFree
    · simp [boot, other]
  case plain =>
    intro i notDir
    rcases eq_or_ne i ROOTINO with rfl | other
    · exact absurd linked.1 notDir
    · simp [boot, other]
  case unused => simp [boot, Sound.root_ne_zero.symm]
  case shape =>
    intro i isDir
    rcases eq_or_ne i ROOTINO with rfl | other
    · rw [root]
      refine ⟨rfl, Sound.root_ne_zero, ?_, ?_⟩
      · simp [entries, rootDir]
      · simp [entries, rootDir]
    · simp [boot, other] at isDir
  case home => exact fun i linked other => absurd linked (boot_unlinked other)
  case root =>
    refine ⟨linked, named _, ?_⟩
    rw [root]
    rfl
  case formed =>
    intro i
    rcases eq_or_ne i ROOTINO with rfl | other
    · rw [root]
      refine ⟨by simp [rootDir, MAXDIRENTS], fun isFile => ?_, fun _ => soiled, fun _ gone => ?_⟩
      · cases isFile
      · exact absurd (root ▸ gone) linked.2
    · exact .of_free (by simp [boot, other]) (by simp [boot, other])

theorem boot_users (i : Inum n) :
    users (boot : State n m).ftable (boot : State n m).proc i = if ROOTINO = i then 1 else 0 := by
  have files : ∑ f, fileUse i ((boot : State n m).ftable f) = 0 :=
    Finset.sum_eq_zero fun f _ => by simp [fileUse, boot]
  have dirs : ∑ p, cwdUse i ((boot : State n m).proc p) = if ROOTINO = i then 1 else 0 := by
    rw [Finset.sum_eq_single 0]
    · simp [cwdUse, boot]
    · intro p _ other
      simp [cwdUse, boot, other]
    · simp
  rw [users, files, dirs, Nat.zero_add]

theorem boot_consistent (soiled : ¬ w.clean ROOTINO) : Consistent w (boot : State n m) := by
  refine ⟨⟨boot_sound soiled, fun i => ?_⟩, ⟨fun f => ?_, fun f => ?_⟩, fun p _ fd => rfl⟩
  · rw [boot_users]
    rcases eq_or_ne i ROOTINO with rfl | other
    · constructor
      · simp [boot]
      · intro _ none
        simp [boot, rootDir] at none
      · intro valid
        simp [boot] at valid
      · intro _ isFree
        simp [boot, rootDir] at isFree
    · constructor
      · simp [boot, other, other.symm]
      · intro typed
        simp [boot, other] at typed
      · intro valid
        simp [boot, other] at valid
      · intro pos
        rw [if_neg other.symm] at pos
        omega
  · have none : holders (boot : State n m).proc f = 0 :=
      Finset.sum_eq_zero fun p _ => Finset.sum_eq_zero fun fd _ => by simp [boot]
    rw [none]
    rfl
  · simp [boot]

/-- An open file is the file of some descriptor. -/
theorem users_of_unused (cons : Consistent w s) {i : Inum n} (unused : ¬ InUse s i) :
    users s.ftable s.proc i = 0 := by
  rw [users, Nat.add_eq_zero_iff]
  constructor
  · refine Finset.sum_eq_zero fun f _ => ?_
    unfold fileUse
    rw [if_neg]
    rintro ⟨opened, same⟩
    have pos : holders s.proc f ≠ 0 := by
      have refs := cons.files.refs f
      have closed := cons.files.closed f
      simp only [List.count_nil] at refs
      intro zero
      exact opened (closed.mp (by omega))
    obtain ⟨p, -, some⟩ := Finset.exists_ne_zero_of_sum_ne_zero pos
    obtain ⟨fd, -, here⟩ := Finset.exists_ne_zero_of_sum_ne_zero some
    exact unused (.inl ⟨p, fd, f, by simpa using here, same⟩)
  · refine Finset.sum_eq_zero fun p _ => ?_
    unfold cwdUse
    rw [if_neg]
    exact fun here => unused (.inr ⟨p, here⟩)

theorem named_of_names (sound : Sound w s.dinode []) {i d : Inum n} (real : i ≠ 0)
    (there : 0 < names i (s.dinode d)) : Named s i := by
  have linked := linked_of_names there
  unfold names tally at there
  rw [if_pos linked, List.countP_pos_iff] at there
  obtain ⟨de, inside, same⟩ := there
  have same : de.inum = i := of_decide_eq_true same
  have plain := (sound.shape d linked.1).plain de inside (same ▸ real)
  exact ⟨d, linked.1, de, List.mem_of_mem_drop inside, same, plain⟩

/-- In a consistent state an inode without users keeps a link, and a link is a name. -/
theorem no_orphans_of_consistent (cons : Consistent w s) : NoOrphans s := by
  intro i typed notRoot unused
  have sound := cons.inodes.sound
  have entered := cons.inodes.entered i
  have nobody := users_of_unused cons unused
  have links : (s.dinode i).nlink ≠ 0 := by
    intro none
    have pos := (entered.kept typed none).2
    have refs := entered.refs
    rw [nobody, List.count_nil] at refs
    omega
  have real : i ≠ 0 := by
    rintro rfl
    exact typed sound.unused
  by_cases isDir : (s.dinode i).type = .dir
  · obtain ⟨once, -⟩ := sound.home i ⟨isDir, links⟩ notRoot
    have some : named s.dinode i ≠ 0 := by omega
    obtain ⟨d, there⟩ := exists_of_named some
    exact named_of_names sound real there
  · have childless : subdirs s.dinode i = 0 := sound.file_childless isDir
    have count := sound.count i real
    rw [childless, List.count_nil] at count
    have some : named s.dinode i ≠ 0 := by
      intro none
      exact links (eq_zero_iff.mpr (by omega))
    obtain ⟨d, there⟩ := exists_of_named some
    exact named_of_names sound real there

/-- Every run of careful calls leads to a consistent state. -/
theorem run_consistent {calls : List (Call m)}
    (careful : Meets step Careful (boot : State n m) calls) (h : run step boot calls = .ok s) :
    Consistent anyNumber s :=
  run_invariant (I := Consistent anyNumber)
    (fun s c _ cons careful h => step_consistent cons careful (served_any s c) h)
    (boot_consistent id) careful h

/-- In every run of such calls, every inode is the root, used, named or free. -/
theorem no_orphans {calls : List (Call m)} (careful : Meets step Careful (boot : State n m) calls)
    (h : run step boot calls = .ok s) : NoOrphans s :=
  no_orphans_of_consistent (run_consistent careful h)

/-- A directory with a file that is opened, and closed after both names are gone. -/
def unlinkOpen : List (Call 0) :=
  [.mkdir 0 (some [100]) true true,
   .open 0 (some [100, 47, 102]) (O_CREATE ||| O_RDWR) true,
   .unlink 0 (some [100, 47, 102]),
   .unlink 0 (some [100]),
   .close 0 0]

theorem no_orphans_unlinkOpen :
    ∃ s, run step (boot : State 198 0) unlinkOpen = .ok s ∧ NoOrphans s := by
  have careful : Meets step Careful (boot : State 198 0) unlinkOpen := by decide +kernel
  have runs : Yields (run step (boot : State 198 0) unlinkOpen) fun _ => True := by decide +kernel
  obtain ⟨s, h, -⟩ := runs
  exact ⟨s, h, no_orphans careful h⟩

/-- Make a directory, go there, remove it, make a file in it, and leave. -/
def strand : List (Call 0) :=
  [.mkdir 0 (some [100]) true true,
   .chdir 0 (some [100]),
   .unlink 0 (some [46, 46, 47, 100]),
   .open 0 (some [102]) (O_CREATE ||| O_RDWR) true,
   .close 0 0,
   .chdir 0 (some [47])]

/-- The file has a link, no user, and no entry of any directory names it. -/
theorem strand_orphans :
    Yields (run step (boot : State 198 0) strand) fun s =>
      (s.dinode 3).type = .file ∧ (3 : Inum 198) ≠ ROOTINO ∧ ¬ InUse s 3 ∧
        ∀ d, (s.dinode d).type = .dir → ∀ de ∈ (s.dinode d).dirents, de.inum ≠ 3 := by
  decide +kernel

end OrphanInodes
