import Xv6.OrphanInodes

/-!
# Link counts of files as numbers of entries

As long as no link count of 32767 is raised, the link count of a file is the number of
entries that name it, and what `iput` frees has no entry. `sys_link` does not look at
the count that it raises, and the next link makes it negative. A directory that is removed
while it is in use keeps its "..", which may come to name a file made later.
-/

namespace EntryCounts
open ByteMemory DirectoryCalls EventRuns FileReferences Function InodeCreation InodeReferences
  LinkCounts OrphanInodes Outcomes SlotTables

variable {n m : Nat} {w : Allotment n} {s t : State n m}

/-- The number of entries of a directory that name the inode. -/
def namesIn (i : Inum n) (d : Dinode n) : Nat :=
  if d.type = .dir then d.dirents.countP fun de => de.inum = i else 0

/-- The number of entries that name the inode in all directories. -/
def entryCount (s : State n m) (i : Inum n) : Nat := ∑ d, namesIn i (s.dinode d)

/-- The link count of a file is the number of entries. -/
def Counted (s : State n m) : Prop :=
  ∀ i, (s.dinode i).type = .file → (s.dinode i).nlink.toInt = entryCount s i

/-- The call makes a file, if it can, and this is its number. -/
def Takes (s : State n m) : Call m → Inum n → Prop
  | .open p (some path) omode _, i =>
    omode &&& O_CREATE ≠ 0 ∧ Unnamed s p path ∧ nextInum s.dinode = some i
  | _, _ => False

instance (s : State n m) : (c : Call m) → (i : Inum n) → Decidable (Takes s c i)
  | .open _ (some _) _ _, _ => inferInstanceAs (Decidable (_ ∧ _ ∧ _))
  | .open _ none _ _, _ | .mkdir .., _ | .mknod .., _ | .link .., _ | .unlink .., _
  | .chdir .., _ | .close .., _ | .exit .., _ | .fork .., _ => inferInstanceAs (Decidable False)

/-- The call is careful, and makes no file with the number in the ".." of a directory
that has been removed. -/
def Wary (s : State n m) (c : Call m) : Prop :=
  Careful s c ∧ ∀ i, Takes s c i → ∀ d, (s.dinode d).type = .dir → (s.dinode d).nlink = 0 →
    parentOf (s.dinode d) ≠ i

instance (s : State n m) (c : Call m) : Decidable (Wary s c) :=
  inferInstanceAs (Decidable (_ ∧ _))

/-- The numbers of files are kept out of "..". -/
def keeping (file : Inum n → Prop) : Allotment n := ⟨file, file⟩

/-- The files of a state. -/
def files (s : State n m) : Allotment n := keeping fun i => (s.dinode i).type = .file

/-- The same, with the file that the call may make. -/
def taking (s : State n m) (c : Call m) : Allotment n :=
  keeping fun i => (s.dinode i).type = .file ∨ Takes s c i

theorem namesIn_eq {disk : Disk n} (sound : Sound w disk []) {i : Inum n} (real : i ≠ 0)
    (clean : w.clean i) (notDir : (disk i).type ≠ .dir) (d : Inum n) :
    namesIn i (disk d) = names i (disk d) := by
  unfold namesIn names
  by_cases isDir : (disk d).type = .dir
  · have shape := sound.shape d isDir
    have self : d ≠ i := by
      rintro rfl
      exact notDir isDir
    rw [if_pos isDir, shape.split]
    by_cases linked : Linked (disk d)
    · -- "." and ".." name directories
      have parent : parentOf (disk d) ≠ i := by
        intro same
        exact notDir (same ▸ sound.parent_dir linked)
      rw [if_pos linked]
      simp [self, parent, tally]
    · have gone : (disk d).nlink = 0 := by
        by_contra some
        exact linked ⟨isDir, some⟩
      have parent : parentOf (disk d) ≠ i := by
        intro same
        exact (sound.formed d).left isDir gone (same ▸ clean)
      have empty : (entries (disk d)).countP (fun de => de.inum = i) = 0 := by
        refine List.countP_eq_zero.mpr fun de mem here => ?_
        exact real ((of_decide_eq_true here).symm.trans (shape.empty gone de mem))
      rw [if_neg linked]
      simp [self, parent, empty]
  · rw [if_neg isDir, if_neg fun linked => isDir linked.1]

theorem entryCount_eq (sound : Sound w s.dinode []) {i : Inum n} (real : i ≠ 0)
    (clean : w.clean i) (notDir : (s.dinode i).type ≠ .dir) :
    (s.dinode i).nlink.toInt = entryCount s i := by
  have same : entryCount s i = named s.dinode i :=
    Finset.sum_congr rfl fun d _ => namesIn_eq sound real clean notDir d
  have childless : subdirs s.dinode i = 0 := sound.file_childless notDir
  have count := sound.count i real
  rw [childless, List.count_nil] at count
  rw [same]
  omega

theorem real_of_file (sound : Sound w s.dinode []) {i : Inum n}
    (isFile : (s.dinode i).type = .file) : i ≠ 0 := by
  rintro rfl
  have := sound.unused
  rw [isFile] at this
  cases this

theorem counted_of_sound (sound : Sound (files s) s.dinode []) : Counted s := by
  intro i isFile
  exact entryCount_eq sound (real_of_file sound isFile) isFile (by simp [isFile])

/-- Before a call a number is set apart for the file that it may make. -/
theorem consistent_taking {c : Call m} (cons : Consistent (files s) s) (wary : Wary s c) :
    Consistent (taking s c) s := by
  have sound := cons.inodes.sound
  refine ⟨⟨sound.retag fun i => ?_, cons.inodes.entered⟩, cons.files, cons.gone⟩
  have formed := sound.formed i
  refine ⟨formed.few, .inl, fun isDir => ?_, fun isDir gone => ?_⟩
  · rintro (isFile | taken)
    · exact formed.apart isDir isFile
    · unfold Takes at taken
      split at taken
      · have next := List.find?_some taken.2.2
        simp only [decide_eq_true_eq] at next
        rw [isDir] at next
        cases next.2
      · exact taken
  · rintro (isFile | taken)
    · exact formed.left isDir gone isFile
    · exact wary.2 _ taken i isDir gone rfl

theorem served_taking (c : Call m) : Served (taking s c) s c := by
  have isFree : ∀ {ip}, nextInum s.dinode = some ip → (s.dinode ip).type = .free := by
    intro ip next
    have next := List.find?_some next
    simp only [decide_eq_true_eq] at next
    exact next.2
  unfold Served
  split
  · intro creates new ip next
    exact ⟨fun _ => .inr ⟨creates, new, next⟩, nofun⟩
  · rintro new ip next
    refine ⟨nofun, fun _ => ?_⟩
    rintro (isFile | taken)
    · rw [isFree next] at isFile
      cases isFile
    · exact taken
  · exact fun _ _ _ => ⟨nofun, nofun⟩
  · trivial

/-- The files of the state before stay out of ".." while the call runs. -/
theorem step_taking {c : Call m} (cons : Consistent (files s) s) (wary : Wary s c)
    (h : step s c = .ok t) : Consistent (taking s c) t :=
  step_consistent (consistent_taking cons wary) wary.1 (served_taking c) h

theorem step_files {c : Call m} (cons : Consistent (files s) s) (wary : Wary s c)
    (h : step s c = .ok t) : Consistent (files t) t := by
  have after := step_taking cons wary h
  have sound := after.inodes.sound
  refine ⟨⟨sound.retag fun i => ?_, after.inodes.entered⟩, after.files, after.gone⟩
  have formed := sound.formed i
  refine ⟨formed.few, id, fun isDir isFile => ?_, fun isDir gone isFile => ?_⟩
  · have both : InodeType.dir = .file := isDir.symm.trans isFile
    cases both
  · exact formed.left isDir gone ((sound.formed _).filed isFile)

/-- A call that frees a file leaves no entry for it. -/
theorem freed_unnamed {c : Call m} (cons : Consistent (files s) s) (wary : Wary s c)
    (h : step s c = .ok t) {i : Inum n} (isFile : (s.dinode i).type = .file)
    (isFree : (t.dinode i).type = .free) : entryCount t i = 0 := by
  have sound := (step_taking cons wary h).inodes.sound
  have real := real_of_file cons.inodes.sound isFile
  have count := entryCount_eq sound real (.inl isFile) (by simp [isFree])
  have zero : (0 : BitVec 16).toInt = 0 := rfl
  rw [sound.free i isFree, zero] at count
  omega

/-- In every run of such calls, link counts of files are numbers of entries, and no file with an
entry is freed. -/
theorem links_count_entries {calls : List (Call m)}
    (wary : Meets step Wary (boot : State n m) calls) (h : run step boot calls = .ok s) :
    Counted s ∧ ∀ c t, Wary s c → step s c = .ok t →
      ∀ i, (s.dinode i).type = .file → (t.dinode i).type = .free → entryCount t i = 0 := by
  have rootDir : ((boot : State n m).dinode ROOTINO).type ≠ .file := by
    simp [boot, DirectoryCalls.rootDir]
  have cons : Consistent (files s) s :=
    run_invariant (I := fun s => Consistent (files s) s)
      (fun _ _ _ cons wary h => step_files cons wary h) (boot_consistent rootDir) wary h
  exact ⟨counted_of_sound cons.inodes.sound,
    fun c t wary done i isFile isFree => freed_unnamed cons wary done isFile isFree⟩

/-- A file with two names, one of which is taken away again, beside a directory that is
removed while it is in use. -/
def renamed (p : Fin 1) : List (Call 0) :=
  [.mkdir p (some [100]) true true, .chdir p (some [100]),
    .open p (some [47, 97]) (O_CREATE ||| O_RDWR) true,
    .link p (some [47, 97]) (some [47, 98]) true,
    .unlink p (some [47, 100]), .unlink p (some [47, 97]), .close p 0]

theorem links_count_entries_renamed :
    ∃ s t, run step (boot : State 3 0) (renamed 0) = .ok s ∧
      step s (.unlink 0 (some [47, 98])) = .ok t ∧
      ((s.dinode 2).type = .dir ∧ (s.dinode 2).nlink = 0 ∧ entryCount s 3 = 1) ∧
      (s.dinode 3).nlink.toInt = entryCount s 3 ∧ entryCount t 3 = 0 := by
  have wary : Meets step Wary (boot : State 3 0) (renamed 0) := by decide +kernel
  have runs : Yields (run step (boot : State 3 0) (renamed 0)) fun s =>
      Wary s (.unlink 0 (some [47, 98])) ∧ (s.dinode 3).type = .file ∧
      ((s.dinode 2).type = .dir ∧ (s.dinode 2).nlink = 0 ∧ entryCount s 3 = 1) ∧
      Yields (step s (.unlink 0 (some [47, 98]))) fun t => (t.dinode 3).type = .free := by
    decide +kernel
  obtain ⟨s, h, next, isFile, facts, t, done, isFree⟩ := runs
  obtain ⟨counted, freed⟩ := links_count_entries wary h
  exact ⟨s, t, h, done, facts, counted 3 isFile, freed _ t next done 3 isFile isFree⟩

/-- A directory is removed while it is in use, its parent after it, and a file is made. -/
def reused (p : Fin 1) : List (Call 0) :=
  [.mkdir p (some [100]) true true, .mkdir p (some [100, 47, 101]) true true,
    .chdir p (some [100, 47, 101]), .unlink p (some [47, 100, 47, 101]),
    .unlink p (some [47, 100]), .open p (some [47, 102]) (O_CREATE ||| O_RDWR) true]

/-- The file has the number that is still in the ".." of the directory, and is freed with
that entry there. -/
theorem reused_miscounted :
    (Yields (run step (boot : State 3 0) (reused 0)) fun s =>
      (s.dinode 2).type = .file ∧ (s.dinode 2).nlink.toInt = 1 ∧ entryCount s 2 = 2) ∧
    (Yields (run step (boot : State 3 0) (reused 0 ++ [.unlink 0 (some [47, 102]), .close 0 0]))
      fun s => (s.dinode 2).type = .free ∧ entryCount s 2 = 1) := by
  decide +kernel

/-- A file, inode 2, with many names in two directories. -/
def crowd (s : State 3 0) (l : Bool → List (Dirent 3)) (k : Nat) : State 3 0 :=
  { s with
    dinode := fun i =>
      if i = 1 then
        ⟨.dir, 0, 0, 3, [⟨1, dot⟩, ⟨1, dotdot⟩, ⟨2, [97]⟩, ⟨3, [100]⟩, ⟨4, [101]⟩]⟩
      else if i = 2 then ⟨.file, 0, 0, BitVec.ofNat 16 k, []⟩
      else if i = 3 then ⟨.dir, 0, 0, 1, ⟨3, dot⟩ :: ⟨1, dotdot⟩ :: l false⟩
      else if i = 4 then ⟨.dir, 0, 0, 1, ⟨4, dot⟩ :: ⟨1, dotdot⟩ :: l true⟩
      else ⟨.free, 0, 0, 0, []⟩
    itable := fun i =>
      if i = 0 then ⟨0, false, false⟩
      else if i = 1 then ⟨1, true, false⟩
      else ⟨0, true, false⟩
    proc := fun _ => ⟨some 1, fun _ => none⟩
    outstanding := 0 }

/-- The names in one of the directories, and the path of one. -/
def nameOf (j : Nat) : Name :=
  [BitVec.ofNat 8 (64 + j / 4096), BitVec.ofNat 8 (64 + j / 64 % 64), BitVec.ofNat 8 (64 + j % 64)]

def pathOf (b : Bool) (j : Nat) : Path := (if b then 101#8 else 100#8) :: slash :: nameOf j

def namesUpTo (count : Nat) : List (Dirent 3) := (List.range count).map fun j => ⟨2, nameOf j⟩

/-- As many links to the file from the directory. -/
def linking (p : Fin 1) (b : Bool) (count : Nat) : List (Call 0) :=
  (List.range count).map fun j => .link p (some [97]) (some (pathOf b j)) true

theorem inUse_lt (s : State 3 0) : s.inUse < NINODE := by
  have le : s.inUse ≤ (List.finRange 5).length := List.countP_le_length
  rw [List.length_finRange] at le
  exact lt_of_le_of_lt le (by decide)

theorem skipelem_dir {c x y z : Byte} (hc : c ≠ slash) (hx : x ≠ slash) :
    skipelem [c, slash, x, y, z] = some ([c], [x, y, z]) := by
  simp [skipelem, hc, hx, DIRSIZ]

theorem skipelem_last {x y z : Byte} (hx : x ≠ slash) (hy : y ≠ slash) (hz : z ≠ slash) :
    skipelem [x, y, z] = some ([x, y, z], []) := by
  simp [skipelem, hx, hy, hz, DIRSIZ]

theorem skipelem_file : skipelem [97#8] = some ([97#8], []) := by decide

theorem skipelem_nil : skipelem [] = none := by decide

/-- One link more, without a look at the count. -/
theorem link_crowd (s : State 3 0) {l : Bool → List (Dirent 3)} {k : Nat} {b : Bool} {x y z : Byte}
    (hx : x ≠ slash) (hy : y ≠ slash) (hz : z ≠ slash)
    (some_ : BitVec.ofNat 16 k + 1#16 ≠ 0#16) (new : lookup (l b) [x, y, z] = none)
    (full : (l b).findIdx (fun de => de.inum = 0) = (l b).length)
    (short : (l b).length + 2 < MAXDIRENTS) :
    step (crowd s l k) (.link 0 (some [97])
      (some ((if b then 101#8 else 100#8) :: slash :: [x, y, z])) true) =
      .ok (crowd s (update l b (l b ++ [⟨2, [x, y, z]⟩])) (k + 1)) := by
  have room : ¬ MAXDIRENTS ≤ (l b).length + 2 := by omega
  have next : BitVec.ofNat 16 (k + 1) = BitVec.ofNat 16 k + 1#16 := BitVec.ofNat_add ..
  have first0 : skipelem [100#8, slash, x, y, z] = some ([100#8], [x, y, z]) :=
    skipelem_dir (by decide) hx
  have first1 : skipelem [101#8, slash, x, y, z] = some ([101#8], [x, y, z]) :=
    skipelem_dir (by decide) hx
  have last := skipelem_last hx hy hz
  have h97 : (97#8 = slash) = False := by decide
  have h100 : (100#8 = slash) = False := by decide
  have h101 : (101#8 = slash) = False := by decide
  cases b
  all_goals
    simp [step, Call.proc, sys_link, linkName, dirlink, dirlookup, lookup, writeDirent, put, namei,
      nameiparent, namex, namexStart, namexLoop, dot, dotdot, skipelem_file,
      skipelem_nil, first0, first1, last, iget, idup, ilock, iunlock, iput, iunlockput, inUse_lt,
      State.setEntry, State.setLinks, State.setInode, begin_op, end_op, crowd, bind, Except.bind,
      pure, Except.pure, Except.map, h97, h100, h101, new, some_, List.findIdx_cons, full, room,
      next]
    constructor
    · funext i
      obtain ⟨_ | _ | _ | _ | _ | k, bound⟩ := i
      all_goals first
        | omega
        | simp
    · funext i
      obtain ⟨_ | _ | _ | _ | _ | k, bound⟩ := i
      all_goals first
        | omega
        | simp

theorem nameOf_ne {i j : Nat} (before : i < j) (few : j < MAXDIRENTS) : nameOf i ≠ nameOf j := by
  have few : j < 17152 := few
  intro same
  simp only [nameOf, List.cons.injEq, and_true] at same
  obtain ⟨high, middle, low⟩ := same
  have high := congrArg BitVec.toNat high
  have middle := congrArg BitVec.toNat middle
  have low := congrArg BitVec.toNat low
  simp only [BitVec.toNat_ofNat] at high middle low
  omega

theorem byte_ne_slash {k : Nat} (low : 64 ≤ k) (high : k < 256) : BitVec.ofNat 8 k ≠ slash := by
  intro same
  have same := congrArg BitVec.toNat same
  have is : slash.toNat = 47 := rfl
  rw [is, BitVec.toNat_ofNat] at same
  omega

theorem lookup_none {l : List (Dirent n)} {name : Name} (other : ∀ de ∈ l, de.name ≠ name) :
    lookup l name = none := by
  induction l with
  | nil => rfl
  | cons de l ih =>
    have here := other de (List.mem_cons_self ..)
    simp [lookup, here, ih fun de mem => other de (List.mem_cons_of_mem _ mem)]

theorem namesUpTo_succ (count : Nat) :
    namesUpTo (count + 1) = namesUpTo count ++ [⟨2, nameOf count⟩] := by
  simp [namesUpTo, List.range_succ]

theorem namesUpTo_length (count : Nat) : (namesUpTo count).length = count := by simp [namesUpTo]

theorem namesUpTo_full (count : Nat) :
    (namesUpTo count).findIdx (fun de => de.inum = 0) = (namesUpTo count).length := by
  refine List.findIdx_eq_length.mpr fun de mem => ?_
  obtain ⟨j, -, rfl⟩ := List.mem_map.mp mem
  rfl

theorem run_linking (s : State 3 0) {l : Bool → List (Dirent 3)} {k : Nat} {b : Bool}
    (empty : l b = []) (count : Nat) (few : count + 2 < MAXDIRENTS) (some_ : k + count < 2 ^ 16) :
    run step (crowd s l k) (linking 0 b count) =
      .ok (crowd s (update l b (namesUpTo count)) (k + count)) := by
  induction count with
  | zero =>
    have same : update l b (namesUpTo 0) = l := by
      rw [show namesUpTo 0 = [] from rfl, ← empty, update_eq_self]
    simp [linking, same]
  | succ count ih =>
    have few' : count + 3 < 17152 := few
    have longer : linking 0 b (count + 1) =
        linking 0 b count ++ [.link 0 (some [97]) (some (pathOf b count)) true] := by
      simp [linking, List.range_succ]
    rw [longer, run_append_ok]
    refine ⟨_, ih (by omega) (by omega), run_cons_ok.mpr ⟨_, ?_, rfl⟩⟩
    have here : update l b (namesUpTo count) b = namesUpTo count := update_self ..
    have wrapped : BitVec.ofNat 16 (k + count) + 1#16 ≠ 0#16 := by
      intro zero
      have zero := congrArg BitVec.toNat zero
      simp only [BitVec.toNat_add, BitVec.toNat_ofNat] at zero
      omega
    have new : lookup (update l b (namesUpTo count) b) (nameOf count) = none := by
      rw [here]
      refine lookup_none fun de mem => ?_
      obtain ⟨j, inside, rfl⟩ := List.mem_map.mp mem
      exact nameOf_ne (List.mem_range.mp inside) (by simp only [MAXDIRENTS]; omega)
    have linked := link_crowd s (byte_ne_slash (by omega) (by omega))
      (byte_ne_slash (by omega) (by omega)) (byte_ne_slash (by omega) (by omega)) wrapped new
      (by rw [here]; exact namesUpTo_full count)
      (by rw [here, namesUpTo_length]; simp only [MAXDIRENTS]; omega)
    rw [here, update_idem] at linked
    rw [namesUpTo_succ]
    exact linked

/-- A file and two directories. -/
def founded (p : Fin 1) : List (Call 0) :=
  [.open p (some [97]) (O_CREATE ||| O_RDWR) true, .close p 0, .mkdir p (some [100]) true true,
    .mkdir p (some [101]) true true]

/-- Then links to the file until it has 32768 names. -/
def crowded (p : Fin 1) : List (Call 0) :=
  founded p ++ linking p false 17000 ++ linking p true 15767

theorem run_founded :
    ∃ s, run step (boot : State 3 0) (founded 0) = .ok (crowd s (fun _ => []) 1) := by
  have ran : Yields (run step (boot : State 3 0) (founded 0)) fun s =>
      (∀ i, s.dinode i = (crowd s (fun _ => []) 1).dinode i) ∧
      (∀ i, s.itable i = (crowd s (fun _ => []) 1).itable i) ∧
      (∀ p, (s.proc p).cwd = some 1 ∧ ∀ fd, (s.proc p).ofile fd = none) ∧ s.outstanding = 0 := by
    decide +kernel
  obtain ⟨s, h, dinode, itable, proc, outstanding⟩ := ran
  have same : s = crowd s (fun _ => []) 1 := by
    have procs : s.proc = fun _ => ⟨some 1, fun _ => none⟩ := by
      funext p
      obtain ⟨cwd, ofile⟩ := proc p
      rw [← cwd, ← funext ofile]
    rcases s with ⟨d, it, ft, pr, out⟩
    simp only [crowd] at dinode itable procs outstanding ⊢
    rw [funext dinode, funext itable, procs, outstanding]
  exact ⟨s, h.trans (congrArg _ same)⟩

/-- The last link makes the count -32768. -/
theorem crowded_miscounted :
    ∃ s, run step (boot : State 3 0) (crowded 0) = .ok s ∧ (s.dinode 2).type = .file ∧
      (s.dinode 2).nlink.toInt = -32768 ∧ ¬ Counted s := by
  obtain ⟨s, start⟩ := run_founded
  have first := run_linking s (l := fun _ => []) (k := 1) (b := false) rfl 17000 (by decide)
    (by decide)
  have second := run_linking s (l := update (fun _ => []) false (namesUpTo 17000)) (k := 1 + 17000)
    (b := true) rfl 15767 (by decide) (by decide)
  refine ⟨_, run_append_ok.mpr ⟨_, run_append_ok.mpr ⟨_, start, first⟩, second⟩, rfl, rfl, ?_⟩
  intro counted
  have count := counted 2 rfl
  have negative : ((crowd s (update (update (fun _ => []) false (namesUpTo 17000)) true
    (namesUpTo 15767)) (1 + 17000 + 15767)).dinode 2).nlink.toInt = -32768 := rfl
  rw [negative] at count
  omega

end EntryCounts
