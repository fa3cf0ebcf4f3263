import Xv6.OrphanInodes
import Xv6.PathElements

/-!
# Where a path leads

`namei` follows the components of a path through the directory tree, from the root or from
the current directory, and `nameiparent` stops at the directory of the last one. The tree is
the file system of a consistent state; the directory in which the walk begins belongs to it.
-/

namespace PathWalks
open DirectoryCalls InodeReferences FileReferences LinkCounts PathElements Outcomes Function

variable {n m : Nat} {w : Allotment n}

/-- The inode that the names lead to. -/
def walk (disk : Disk n) : Inum n → List Name → Option (Inum n)
  | ip, [] => some ip
  | ip, name :: names =>
    if (disk ip).type = .dir then
      (lookup (disk ip).dirents name).bind fun next => walk disk next.2 names
    else none

/-- The directory that all names but the last lead to, and the last one. -/
def walkParent (disk : Disk n) (ip : Inum n) (names : List Name) : Option (Inum n × Name) :=
  names.getLast?.bind fun name =>
    ((walk disk ip names.dropLast).filter fun dp => (disk dp).type = .dir).map (·, name)

variable {disk : Disk n} {ip : Inum n}

/-- A walk ends early at an inode that is no directory or has no entry with the name. -/
theorem walk_none_iff (names : List Name) :
    walk disk ip names = none ↔ ∃ before name after dp, names = before ++ name :: after ∧
      walk disk ip before = some dp ∧
      ((disk dp).type ≠ .dir ∨ lookup (disk dp).dirents name = none) := by
  constructor
  · intro stuck
    induction names generalizing ip with
    | nil => cases stuck
    | cons name names ih =>
      unfold walk at stuck
      by_cases isDir : (disk ip).type = .dir
      · rw [if_pos isDir] at stuck
        cases found : lookup (disk ip).dirents name with
        | none => exact ⟨[], name, names, ip, rfl, rfl, .inr found⟩
        | some next =>
          rw [found, Option.bind_some] at stuck
          obtain ⟨before, name', after, dp, rfl, reached, fails⟩ := ih stuck
          refine ⟨name :: before, name', after, dp, rfl, ?_, fails⟩
          rw [walk, if_pos isDir, found, Option.bind_some, reached]
      · exact ⟨[], name, names, ip, rfl, rfl, .inl isDir⟩
  · rintro ⟨before, name, after, dp, rfl, reached, fails⟩
    induction before generalizing ip with
    | nil =>
      obtain rfl : ip = dp := Option.some.inj reached
      rw [List.nil_append, walk]
      rcases fails with plain | absent
      · exact if_neg plain
      · rw [absent, Option.bind_none, ite_self]
    | cons first before ih =>
      unfold walk at reached
      rw [List.cons_append, walk]
      by_cases isDir : (disk ip).type = .dir
      · rw [if_pos isDir] at reached ⊢
        obtain ⟨next, found, reached⟩ := Option.bind_eq_some_iff.mp reached
        rw [found, Option.bind_some, ih reached]
      · exact if_neg isDir

theorem walkParent_cons {name : Name} {names : List Name} (more : names ≠ []) :
    walkParent disk ip (name :: names) =
      if (disk ip).type = .dir then
        (lookup (disk ip).dirents name).bind fun next => walkParent disk next.2 names
      else none := by
  obtain ⟨last, here⟩ : ∃ last, names.getLast? = some last :=
    ⟨_, List.getLast?_eq_some_getLast more⟩
  have last' : (name :: names).getLast? = some last := by
    rw [List.getLast?_cons, here]
    rfl
  rw [walkParent, last', Option.bind_some, List.dropLast_cons_of_ne_nil more, walk]
  by_cases isDir : (disk ip).type = .dir
  · rw [if_pos isDir, if_pos isDir]
    cases lookup (disk ip).dirents name with
    | none => rfl
    | some next => rw [Option.bind_some, Option.bind_some, walkParent, here, Option.bind_some]
  · rw [if_neg isDir, if_neg isDir]
    rfl

theorem follow_walk {rounds : Nat} {path : Path} (enough : path.length < rounds) :
    follow disk false rounds ip path = (walk disk ip (components path)).map (·, []) := by
  induction rounds generalizing ip path with
  | zero => omega
  | succ rounds ih =>
    unfold follow
    rcases elem : skipelem path with _ | ⟨name, rest⟩
    · rw [skipelem_none elem]
      rfl
    · have shorter := skipelem_shorter elem
      rw [(skipelem_some elem).1, walk]
      simp only [Bool.false_eq_true, false_and, if_false]
      by_cases isDir : (disk ip).type = .dir
      · rw [if_neg (not_not.mpr isDir), if_pos isDir]
        cases lookup (disk ip).dirents name with
        | none => rfl
        | some next => exact ih (by omega)
      · rw [if_pos isDir, if_neg isDir]
        rfl

theorem follow_walkParent {rounds : Nat} {path : Path} (enough : path.length < rounds) :
    follow disk true rounds ip path = walkParent disk ip (components path) := by
  induction rounds generalizing ip path with
  | zero => omega
  | succ rounds ih =>
    unfold follow
    rcases elem : skipelem path with _ | ⟨name, rest⟩
    · rw [skipelem_none elem]
      rfl
    · have shorter := skipelem_shorter elem
      obtain ⟨first, last⟩ := skipelem_some elem
      rw [first]
      simp only [true_and]
      by_cases final : rest = []
      · rw [if_pos final, last.mp final]
        by_cases isDir : (disk ip).type = .dir
        · rw [if_neg (not_not.mpr isDir)]
          simp [walkParent, walk, isDir]
        · rw [if_pos isDir]
          simp [walkParent, walk, isDir]
      · rw [if_neg final, walkParent_cons (mt last.mpr final)]
        by_cases isDir : (disk ip).type = .dir
        · rw [if_neg (not_not.mpr isDir), if_pos isDir]
          cases lookup (disk ip).dirents name with
          | none => rfl
          | some next => exact ih (by omega)
        · rw [if_pos isDir, if_neg isDir]

/-- An inode of the tree. -/
def InTree (disk : Disk n) (i : Inum n) : Prop := (disk i).type ≠ .free ∧ (disk i).nlink ≠ 0

theorem root_inTree (sound : Sound w disk []) : InTree disk ROOTINO := by
  obtain ⟨isDir, links⟩ := sound.root.1
  refine ⟨fun isFree => ?_, links⟩
  rw [isDir] at isFree
  cases isFree

theorem named_inTree (sound : Sound w disk []) {i dp : Inum n} (real : i ≠ 0)
    (there : 0 < names i (disk dp)) : InTree disk i := by
  have links : (disk i).nlink ≠ 0 := by
    intro none_
    have nobody := (sound.unnamed real none_).1
    have le := names_le disk i dp
    omega
  exact ⟨fun isFree => links (sound.free i isFree), links⟩

/-- The entries of a directory of the tree lead to inodes of the tree. -/
theorem lookup_inTree (sound : Sound w disk []) {dp next : Inum n} (here : InTree disk dp)
    (isDir : (disk dp).type = .dir) {name : Name} {k : Nat}
    (found : lookup (disk dp).dirents name = some (k, next)) : InTree disk next := by
  obtain ⟨there, real⟩ := lookup_some found
  have shaped := sound.shape dp isDir
  rw [shaped.split] at there
  match k with
  | 0 =>
    simp only [List.getElem?_cons_zero, Option.some.injEq, Dirent.mk.injEq] at there
    exact there.1 ▸ here
  | 1 =>
    simp only [List.getElem?_cons_succ, List.getElem?_cons_zero, Option.some.injEq,
      Dirent.mk.injEq] at there
    rw [← there.1]
    by_cases isRoot : dp = ROOTINO
    · rw [isRoot, sound.root.2.2]
      exact root_inTree sound
    · have linked := linked_of_names (sound.home dp ⟨isDir, here.2⟩ isRoot).2
      refine ⟨fun isFree => ?_, linked.2⟩
      rw [linked.1] at isFree
      cases isFree
  | k + 2 =>
    have member : (⟨next, name⟩ : Dirent n) ∈ entries (disk dp) :=
      List.mem_of_getElem? (by simpa using there)
    exact named_inTree sound real (sound.names_of_entry isDir member real rfl)

/-- The inodes with a user take this many entries of the table. -/
def active (u : Inum n → Nat) : Nat := (List.finRange (n + 2)).countP fun i => 0 < u i

theorem countP_le_count {p q : Inum n → Bool} {i : Inum n} (l : List (Inum n))
    (differ : ∀ j, p j = true → q j = true ∨ j = i) : l.countP p ≤ l.countP q + l.count i := by
  induction l with
  | nil => exact Nat.zero_le _
  | cons j l ih =>
    rw [List.countP_cons, List.countP_cons, List.count_cons]
    rcases Bool.eq_false_or_eq_true (p j) with yes | no
    · rcases differ j yes with also | rfl
      · rw [if_pos yes, if_pos also]
        omega
      · rw [if_pos yes, beq_self_eq_true, if_pos rfl]
        omega
    · rw [if_neg (by simp [no])]
      omega

/-- The references that the call holds take one entry each at most. -/
theorem active_held (u : Inum n → Nat) (held : List (Inum n)) :
    active (fun i => u i + held.count i) ≤ active u + held.length := by
  induction held with
  | nil => exact Nat.le_refl _
  | cons i held ih =>
    have once : (List.finRange (n + 2)).count i ≤ 1 :=
      List.nodup_iff_count_le_one.mp (List.nodup_finRange _) i
    have more := countP_le_count (p := fun j => 0 < u j + (i :: held).count j)
      (q := fun j => 0 < u j + held.count j) (i := i) (List.finRange (n + 2)) (by
        intro j pos
        by_cases same : j = i
        · exact .inr same
        · rw [List.count_cons_of_ne (Ne.symm same)] at pos
          exact .inl pos)
    simp only [active, List.length_cons] at ih ⊢
    omega

section Calls

variable {s t : State n m} {u : Inum n → Nat} {held : List (Inum n)} {i : Inum n}

theorem inUse_eq (inv : Refs w s.dinode s.itable u held []) :
    s.inUse = active fun i => u i + held.count i := by
  unfold State.inUse active
  simp only [(inv.entered _).refs]

/-- A changed table entry that is locked as before. -/
theorem locked_setEntry {e : Entry} {b : Bool} (lock : e.locked = b) (j : Inum n) :
    ((s.setEntry i e).itable j).locked = if j = i then b else (s.itable j).locked := by
  simp only [State.setEntry]
  rcases eq_or_ne j i with rfl | other
  · rw [update_self, if_pos rfl, lock]
  · rw [update_of_ne other, if_neg other]

theorem locked_same {e : Entry} (lock : e.locked = (s.itable i).locked) (j : Inum n) :
    ((s.setEntry i e).itable j).locked = (s.itable j).locked := by
  rw [locked_setEntry lock]
  split
  next same => rw [same]
  next => rfl

theorem iget_returns (room : s.inUse < NINODE) :
    ∃ t, iget i s = .ok t ∧ ∀ j, (t.itable j).locked = (s.itable j).locked := by
  simp only [iget, room, if_true]
  split
  · exact ⟨_, rfl, locked_same rfl⟩
  · exact ⟨_, rfl, locked_same rfl⟩

theorem ilock_returns (pos : 0 < (s.itable i).ref) (unlocked : (s.itable i).locked = false)
    (typed : (s.dinode i).type ≠ .free) : ∃ t, ilock i s = .ok t ∧
      ∀ j, (t.itable j).locked = if j = i then true else (s.itable j).locked := by
  simp only [ilock]
  rw [if_neg (by omega), if_neg (by simp [unlocked]), if_neg fun h => typed h.2]
  exact ⟨_, rfl, locked_setEntry rfl⟩

theorem iunlock_returns (pos : 0 < (s.itable i).ref) (locked : (s.itable i).locked = true) :
    ∃ t, iunlock i s = .ok t ∧
      ∀ j, (t.itable j).locked = if j = i then false else (s.itable j).locked := by
  simp only [iunlock]
  rw [if_neg (by simp only [locked, Bool.true_eq_false, false_or]; omega)]
  exact ⟨_, rfl, locked_setEntry rfl⟩

theorem iput_returns (unlocked : (s.itable i).locked = false) :
    ∃ t, iput i s = .ok t ∧ ∀ j, (t.itable j).locked = (s.itable j).locked := by
  simp only [iput, unlocked, Bool.false_eq_true, if_false]
  split
  · exact ⟨_, rfl, locked_same unlocked.symm⟩
  · exact ⟨_, rfl, locked_same unlocked.symm⟩

/-- `iunlockput` of an inode that is locked; other locks stay as they are. -/
theorem iunlockput_returns (pos : 0 < (s.itable i).ref) (locked : (s.itable i).locked = true) :
    ∃ t, iunlockput i s = .ok t ∧
      ∀ j, (t.itable j).locked = if j = i then false else (s.itable j).locked := by
  obtain ⟨t, unlock, locks⟩ := iunlock_returns pos locked
  obtain ⟨t', put, locks'⟩ := iput_returns ((locks i).trans (if_pos rfl))
  refine ⟨t', ?_, fun j => (locks' j).trans (locks j)⟩
  unfold iunlockput
  rw [unlock]
  exact put

theorem dirlookup_returns (name : Name) (room : s.inUse < NINODE)
    (isDir : (s.dinode i).type = .dir) : ∃ r t, dirlookup i name s = .ok (r, t) ∧
      ∀ j, (t.itable j).locked = (s.itable j).locked := by
  unfold dirlookup
  rw [if_neg (not_not.mpr isDir)]
  cases lookup (s.dinode i).dirents name with
  | none => exact ⟨none, s, rfl, fun _ => rfl⟩
  | some next =>
    obtain ⟨t, get, locks⟩ := iget_returns (i := next.2) room
    refine ⟨some next, t, ?_, locks⟩
    simp only [get]
    rfl

/-- With an entry of the table to spare, `namex` gets through a tree without locks. -/
theorem namexLoop_returns (parent : Bool) {rounds : Nat} {path : Path}
    (inv : Refs w s.dinode s.itable u (i :: held) []) (settled : Settled s.dinode u)
    (unlocked : ∀ j, (s.itable j).locked = false) (here : InTree s.dinode i)
    (room : active u + held.length + 1 < NINODE) (enough : path.length < rounds) :
    ∃ r, namexLoop parent rounds i path s = .ok r := by
  induction rounds generalizing s i path with
  | zero => omega
  | succ rounds ih =>
    unfold namexLoop
    rcases elem : skipelem path with _ | ⟨name, rest⟩
    · simp only
      split
      · obtain ⟨t, put, -⟩ := iput_returns (unlocked i)
        rw [put]
        exact ⟨_, rfl⟩
      · exact ⟨_, rfl⟩
    · have shorter := skipelem_shorter elem
      have pos := held_pos inv List.mem_cons_self
      obtain ⟨t, lock, locks⟩ := ilock_returns pos (unlocked i) here.1
      obtain ⟨quiet, inv, -⟩ := ilock_ok inv lock
      have pos := held_pos inv List.mem_cons_self
      have locked : (t.itable i).locked = true := (locks i).trans (if_pos rfl)
      have settled : Settled t.dinode u := quiet.dinode ▸ settled
      simp only [lock, Bind.bind, Except.bind]
      split
      · obtain ⟨t', put, -⟩ := iunlockput_returns pos locked
        simp only [put]
        exact ⟨_, rfl⟩
      next isDir =>
        split
        · obtain ⟨t', unlock, -⟩ := iunlock_returns pos locked
          simp only [unlock]
          exact ⟨_, rfl⟩
        · have free : t.inUse < NINODE := by
            have most := active_held u (i :: held)
            rw [← inUse_eq inv, List.length_cons] at most
            omega
          obtain ⟨r, t', look, locks'⟩ := dirlookup_returns name free (not_not.mp isDir)
          obtain ⟨-, found, quiet', inv, -⟩ := dirlookup_ok inv look
          have settled : Settled t'.dinode u := quiet'.dinode ▸ settled
          have locked : (t'.itable i).locked = true := (locks' i).trans locked
          simp only [look]
          cases r with
          | none =>
            have pos := held_pos inv List.mem_cons_self
            obtain ⟨t'', put, -⟩ := iunlockput_returns pos locked
            simp only [put]
            exact ⟨_, rfl⟩
          | some next =>
            have inv := inv.swap
            have pos := held_pos inv List.mem_cons_self
            obtain ⟨t'', put, locks''⟩ := iunlockput_returns pos locked
            obtain ⟨quiet'', inv⟩ := iunlockput_settled inv settled put
            have same : t''.dinode = t.dinode := quiet''.dinode.trans quiet'.dinode
            have unlocked (j : Inum n) : (t''.itable j).locked = false := by
              rw [locks'', locks', locks]
              split
              · rfl
              next other => exact unlocked j
            have home : InTree t''.dinode next.2 := by
              have sound := inv.sound
              rw [same] at sound ⊢
              exact lookup_inTree sound (quiet.dinode ▸ here) (not_not.mp isDir) found.symm
            simp only [put]
            exact ih inv (quiet''.dinode ▸ settled) unlocked home (by omega)

/-- Where `namex` begins. -/
def origin (cwd : Inum n) (path : Path) : Inum n :=
  if path.head? = some slash then ROOTINO else cwd

theorem start_eq {p : Fin (m + 1)} {cwd : Inum n} (here : (s.proc p).cwd = some cwd)
    (path : Path) : start s.proc p path = some (origin cwd path) := by
  unfold start origin
  split
  · rfl
  · exact here

theorem namexStart_returns {p : Fin (m + 1)} {cwd : Inum n} (path : Path)
    (here : (s.proc p).cwd = some cwd) (unlocked : ∀ j, (s.itable j).locked = false)
    (room : s.inUse < NINODE) :
    ∃ t, namexStart p path s = .ok (origin cwd path, t) ∧ ∀ j, (t.itable j).locked = false := by
  unfold namexStart origin
  split
  · obtain ⟨t, get, locks⟩ := iget_returns (i := ROOTINO) room
    rw [get]
    exact ⟨t, rfl, fun j => (locks j).trans (unlocked j)⟩
  · rw [here]
    have locks := locked_same (s := s) (i := cwd)
      (e := { s.itable cwd with ref := (s.itable cwd).ref + 1 }) rfl
    exact ⟨_, rfl, fun j => (locks j).trans (unlocked j)⟩

/-- `namex` in a consistent state, for a process whose directory is in the tree. -/
theorem namex_returns {p : Fin (m + 1)} {cwd : Inum n} (inv : RefsAgree w s [] [])
    (unlocked : ∀ j, (s.itable j).locked = false) (here : (s.proc p).cwd = some cwd)
    (home : InTree s.dinode cwd) (room : s.inUse + 2 ≤ NINODE) (parent : Bool) (path : Path) :
    ∃ r t, namex p path parent s = .ok (r, t) := by
  obtain ⟨t, begins, unlocked⟩ := namexStart_returns path here unlocked (by omega)
  obtain ⟨-, quiet, inv'⟩ := namexStart_ok inv begins
  have settled : Settled t.dinode (users t.ftable t.proc) := by
    rw [quiet.dinode, quiet.users]
    exact inv.settled
  have most : active (users s.ftable s.proc) ≤ s.inUse := by
    rw [inUse_eq inv]
    simp [active]
  have first : InTree t.dinode (origin cwd path) := by
    rw [quiet.dinode]
    unfold origin
    split
    · exact root_inTree inv.sound
    · exact home
  obtain ⟨⟨r, t'⟩, loop⟩ := namexLoop_returns parent inv' settled unlocked first
    (by rw [quiet.users, List.length_nil]; omega) (Nat.lt_succ_self path.length)
  refine ⟨r, t', ?_⟩
  unfold namex
  rw [begins]
  exact loop

/-- `skipelem` takes a path apart into its components; `namei` and `nameiparent` walk along
them from the root or the current directory, and in the tree both return. -/
theorem namei_follows {p : Fin (m + 1)} {cwd : Inum n} (inv : RefsAgree w s [] [])
    (here : (s.proc p).cwd = some cwd) (path : Path) :
    (∀ len m a name, Holds m a path → path.length ≤ len →
      (name + DIRSIZ ≤ a ∨ a + path.length < name) →
      namesAt len name (path.length + 1) m a = some (components path)) ∧
    (∀ r t, namei p path s = .ok (r, t) →
      r = walk s.dinode (origin cwd path) (components path) ∧
      (r = none ↔ ∃ before name after dp, components path = before ++ name :: after ∧
        walk s.dinode (origin cwd path) before = some dp ∧
        ((s.dinode dp).type ≠ .dir ∨ lookup (s.dinode dp).dirents name = none))) ∧
    (∀ r t, nameiparent p path s = .ok (r, t) →
      r = walkParent s.dinode (origin cwd path) (components path) ∧
      (components path = [] → r = none)) ∧
    ((∀ j, (s.itable j).locked = false) → InTree s.dinode cwd → s.inUse + 2 ≤ NINODE →
      (∃ r t, namei p path s = .ok (r, t)) ∧ ∃ r t, nameiparent p path s = .ok (r, t)) := by
  have leads (parent : Bool) : resolve s parent p path =
      follow s.dinode parent (path.length + 1) (origin cwd path) path := by
    rw [resolve, start_eq here, Option.bind_some]
  have enough := Nat.lt_succ_self path.length
  refine ⟨fun len m a name holds long apart => ?_, fun r t done => ?_, fun r t done => ?_,
    fun unlocked home room => ⟨?_, ?_⟩⟩
  · exact namesAt_eq holds long apart enough
  · have found := (namei_ok inv inv.settled done).1
    rw [leads, follow_walk enough, Option.map_map] at found
    replace found : r = walk s.dinode (origin cwd path) (components path) :=
      found.trans Option.map_id'
    exact ⟨found, found ▸ walk_none_iff _⟩
  · have found := (nameiparent_ok inv inv.settled done).1
    rw [leads, follow_walkParent enough] at found
    refine ⟨found, fun none_ => ?_⟩
    rw [found, none_]
    rfl
  · obtain ⟨r, t, ok⟩ := namex_returns inv unlocked here home room false path
    refine ⟨r.map Prod.fst, t, ?_⟩
    unfold namei
    rw [ok]
    rfl
  · exact namex_returns inv unlocked here home room true path

end Calls

/-- A file in a subdirectory. -/
def planted (p : Fin 1) : List (Call 0) :=
  [.mkdir p (some [100]) true true, .open p (some [100, 47, 102]) (O_CREATE ||| O_RDWR) true,
    .close p 0]

theorem namei_follows_planted :
    ∃ s t, EventRuns.run step (boot : State 3 0) (planted 0) = .ok s ∧
      components [100, 47, 102] = [[100], [102]] ∧
      namei 0 [100, 47, 102] s = .ok (some 3, t) ∧
      walk s.dinode ROOTINO (components [100, 47, 102]) = some 3 := by
  have careful : EventRuns.Meets step OrphanInodes.Careful (boot : State 3 0) (planted 0) := by
    decide +kernel
  have seen : Yields (EventRuns.run step (boot : State 3 0) (planted 0)) fun s =>
      (s.proc 0).cwd = some ROOTINO ∧ (∀ j, (s.itable j).locked = false) ∧
      walk s.dinode ROOTINO (components [100, 47, 102]) = some 3 := by
    decide +kernel
  obtain ⟨s, h, here, unlocked, leads⟩ := seen
  have cons := OrphanInodes.run_consistent careful h
  have all := namei_follows cons.inodes here [100, 47, 102]
  have room : s.inUse ≤ (List.finRange 5).length := List.countP_le_length
  have few : s.inUse + 2 ≤ NINODE := by
    rw [List.length_finRange] at room
    unfold NINODE
    omega
  obtain ⟨r, t, ok⟩ := (all.2.2.2 unlocked (root_inTree cons.inodes.sound) few).1
  have found : r = some 3 := (all.2.1 r t ok).1.trans leads
  exact ⟨s, t, h, by decide, found ▸ ok, leads⟩

end PathWalks
