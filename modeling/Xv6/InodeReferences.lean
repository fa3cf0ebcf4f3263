import Xv6.Lib.Outcomes
import Xv6.LinkCounts

/-!
# References to inodes

The table entry of an inode counts the open files and current directories that
are the inode, and the references that the call under way holds. An inode
without links stays loaded as long as there is a reference, so the last `iput`
finds it and frees it.
-/

namespace InodeReferences
open DirectoryCalls Function LinkCounts Outcomes

variable {n m : Nat}

def fileUse (i : Inum n) (x : File n) : Nat := if x.type ≠ .none ∧ x.ip = i then 1 else 0

def cwdUse (i : Inum n) (x : Proc n) : Nat := if x.cwd = some i then 1 else 0

/-- The open files and current directories that are inode `i`. -/
@[irreducible] def users (ftable : Fin NFILE → File n) (proc : Fin (m + 1) → Proc n)
    (i : Inum n) : Nat :=
  (∑ f, fileUse i (ftable f)) + ∑ p, cwdUse i (proc p)

/-- The table entry of an inode with `u` users and `h` more references. -/
structure Entered (d : Dinode n) (e : Entry) (u h : Nat) : Prop where
  refs : e.ref = u + h
  kept : d.type ≠ .free → d.nlink = 0 → e.valid = true ∧ 0 < e.ref
  loaded : e.valid = true → 0 < e.ref → d.type ≠ .free
  used : 0 < u → d.type ≠ .free

/-- The table matches the disk and the users; the call under way holds the references
of the list `held` and has the names of `pending` still to write. -/
structure Refs (w : Allotment n) (disk : Disk n) (itable : Inum n → Entry) (users : Inum n → Nat)
    (held pending : List (Inum n)) : Prop where
  sound : Sound w disk pending
  entered : ∀ i, Entered (disk i) (itable i) (users i) (held.count i)

/-- Every inode without links has a user. -/
def Settled (disk : Disk n) (users : Inum n → Nat) : Prop :=
  ∀ i, (disk i).type ≠ .free → (disk i).nlink = 0 → 0 < users i

/-- Only the table of inodes differs. -/
structure Quiet (s s' : State n m) : Prop where
  dinode : s'.dinode = s.dinode
  ftable : s'.ftable = s.ftable
  proc : s'.proc = s.proc

namespace Quiet

theorem refl (s : State n m) : Quiet s s := ⟨rfl, rfl, rfl⟩

theorem trans {s t u : State n m} (h : Quiet s t) (h' : Quiet t u) : Quiet s u :=
  ⟨h'.dinode.trans h.dinode, h'.ftable.trans h.ftable, h'.proc.trans h.proc⟩

theorem of_begin {s t : State n m} (h : Quiet (begin_op s) t) : Quiet s t :=
  ⟨h.dinode, h.ftable, h.proc⟩

theorem setEntry (s : State n m) (i : Inum n) (e : Entry) : Quiet s (s.setEntry i e) :=
  ⟨rfl, rfl, rfl⟩

end Quiet

/-- Another inode with the same type and, as far as it matters, the same links. -/
theorem Entered.congr {d d' : Dinode n} {e : Entry} {u h : Nat} (entered : Entered d e u h)
    (type : d'.type = .free ↔ d.type = .free) (links : d'.nlink = 0 → d.nlink = 0) :
    Entered d' e u h := by
  constructor
  · exact entered.refs
  · exact fun hasType none => entered.kept (mt type.mpr hasType) (links none)
  · exact fun valid pos => mt type.mp (entered.loaded valid pos)
  · exact fun pos => mt type.mp (entered.used pos)

section Table

variable {w : Allotment n} {disk : Disk n} {itable : Inum n → Entry} {u : Inum n → Nat}
  {held pending : List (Inum n)}

/-- With all references given back, inodes without links have users. -/
theorem Refs.settled (inv : Refs w disk itable u [] pending) : Settled disk u := by
  intro i hasType none
  have entered := inv.entered i
  have pos := (entered.kept hasType none).2
  have refs := entered.refs
  simp only [List.count_nil] at refs
  omega

/-- An inode changes whose loaded copy the call has in hand. -/
theorem entered_change {h : Inum n → Nat} (entered : ∀ i, Entered (disk i) (itable i) (u i) (h i))
    {i : Inum n} {d : Dinode n} (type : d.type = (disk i).type)
    (loaded : (itable i).valid = true ∧ 0 < (itable i).ref) :
    ∀ j, Entered (update disk i d j) (itable j) (u j) (h j) := by
  intro j
  rcases eq_or_ne j i with rfl | other
  · have old := entered j
    rw [update_self]
    exact ⟨old.refs, fun _ _ => loaded, type ▸ old.loaded, type ▸ old.used⟩
  · rw [update_of_ne other]
    exact entered j

/-- One entry of the table changes. -/
theorem Refs.setEntry (inv : Refs w disk itable u held pending) {i : Inum n} {e : Entry}
    {held' : List (Inum n)} (entered : Entered (disk i) e (u i) (held'.count i))
    (others : ∀ j, j ≠ i → held'.count j = held.count j) :
    Refs w disk (update itable i e) u held' pending := by
  refine ⟨inv.sound, fun j => ?_⟩
  rcases eq_or_ne j i with rfl | other
  · rwa [update_self]
  · rw [update_of_ne other, others j other]
    exact inv.entered j

theorem count_cons_other {i j : Inum n} (other : j ≠ i) : (i :: held).count j = held.count j := by
  simp [other.symm]

theorem Refs.get (inv : Refs w disk itable u held pending) {i : Inum n} {e : Entry}
    (refs : e.ref = (itable i).ref + 1)
    (valid : e.valid = if 0 < (itable i).ref then (itable i).valid else false) :
    Refs w disk (update itable i e) u (i :: held) pending := by
  have entered := inv.entered i
  have old := entered.refs
  refine inv.setEntry ?_ fun j other => count_cons_other other
  constructor
  · rw [List.count_cons_self]
    omega
  · intro hasType none
    obtain ⟨isValid, pos⟩ := entered.kept hasType none
    rw [valid, if_pos pos]
    exact ⟨isValid, by omega⟩
  · intro isValid _
    rw [valid] at isValid
    split at isValid
    · exact entered.loaded isValid (by assumption)
    · cases isValid
  · exact entered.used

/-- The references are held in no order. -/
theorem Refs.swap {i j : Inum n} (inv : Refs w disk itable u (i :: j :: held) pending) :
    Refs w disk itable u (j :: i :: held) pending := by
  refine ⟨inv.sound, fun k => ?_⟩
  rw [List.Perm.count_eq (List.Perm.swap i j held)]
  exact inv.entered k

/-- References change hands between the users and the call. -/
theorem Refs.hand {u' : Inum n → Nat} {held' : List (Inum n)}
    (inv : Refs w disk itable u held pending)
    (total : ∀ i, u' i + held'.count i = u i + held.count i)
    (used : ∀ i, u i < u' i → (disk i).type ≠ .free) : Refs w disk itable u' held' pending := by
  refine ⟨inv.sound, fun i => ?_⟩
  have entered := inv.entered i
  constructor
  · rw [total]
    exact entered.refs
  · exact entered.kept
  · exact entered.loaded
  · intro pos
    by_cases more : u i < u' i
    · exact used i more
    · exact entered.used (by omega)

/-- A reference is given back, and another one or a link remains. -/
theorem Refs.put (inv : Refs w disk itable u (i :: held) pending)
    (stays : (disk i).type ≠ .free → (disk i).nlink = 0 → 1 < (itable i).ref) :
    Refs w disk (update itable i { itable i with ref := (itable i).ref - 1 }) u held pending := by
  have entered := inv.entered i
  have old := entered.refs
  rw [List.count_cons_self] at old
  refine inv.setEntry ?_ fun j other => (count_cons_other other).symm
  constructor
  · show (itable i).ref - 1 = u i + held.count i
    omega
  · intro hasType none
    have more := stays hasType none
    exact ⟨(entered.kept hasType none).1, Nat.sub_pos_of_lt more⟩
  · exact fun valid pos => entered.loaded valid (Nat.lt_of_lt_of_le pos (Nat.sub_le ..))
  · exact entered.used

/-- The last reference to an inode without links is given back, which frees the inode. -/
theorem Refs.putFree (inv : Refs w disk itable u (i :: held) pending) (last : (itable i).ref = 1)
    (isValid : (itable i).valid = true) (none : (disk i).nlink = 0) :
    Refs w (update disk i { disk i with type := .free, dirents := [] })
      (update itable i { itable i with ref := (itable i).ref - 1, valid := false })
      u held pending := by
  have entered := inv.entered i
  have old := entered.refs
  rw [List.count_cons_self] at old
  have hasType := entered.loaded isValid (by omega)
  have real : i ≠ 0 := by
    rintro rfl
    exact hasType inv.sound.unused
  constructor
  · exact inv.sound.replace (fun linked => linked.2 none) (by simp) rfl (fun _ => none)
      (.of_free rfl rfl) real rfl (fun _ _ => rfl)
  · intro j
    rcases eq_or_ne j i with rfl | other
    · rw [update_self, update_self]
      constructor
      · show (itable j).ref - 1 = u j + held.count j
        omega
      · exact fun typed => absurd rfl typed
      · exact fun valid => by cases valid
      · intro pos
        omega
    · rw [update_of_ne other, update_of_ne other, ← count_cons_other other]
      exact inv.entered j

end Table

section Functions

variable {w : Allotment n} {s s' : State n m} {u : Inum n → Nat}
  {held pending : List (Inum n)} {i : Inum n}

/-- Another reference neither locks an inode nor changes a copy that is in use. -/
def Stays (s s' : State n m) : Prop :=
  ∀ j, (s'.itable j).locked = (s.itable j).locked ∧
    (0 < (s.itable j).ref → (s'.itable j).valid = (s.itable j).valid)

theorem iget_ok (inv : Refs w s.dinode s.itable u held pending) (h : iget i s = .ok s') :
    Quiet s s' ∧ Refs w s'.dinode s'.itable u (i :: held) pending ∧ Stays s s' := by
  have stays : ∀ e : Entry, e.locked = (s.itable i).locked →
      (0 < (s.itable i).ref → e.valid = (s.itable i).valid) → Stays s (s.setEntry i e) := by
    intro e lock valid
    exact (forall_update_iff s.itable fun j x => x.locked = (s.itable j).locked ∧
      (0 < (s.itable j).ref → x.valid = (s.itable j).valid)).mpr
        ⟨⟨lock, valid⟩, fun _ _ => ⟨rfl, fun _ => rfl⟩⟩
  simp only [iget] at h
  split at h
  · rename_i pos
    cases h
    exact ⟨.setEntry .., inv.get rfl (if_pos pos).symm, stays _ rfl fun _ => rfl⟩
  · rename_i zero
    split at h
    · cases h
      refine ⟨.setEntry .., inv.get ?_ (if_neg zero).symm, stays _ rfl fun pos => absurd pos zero⟩
      show 1 = (s.itable i).ref + 1
      omega
    · cases h

theorem idup_ok (inv : Refs w s.dinode s.itable u held pending) (pos : 0 < (s.itable i).ref) :
    Refs w s.dinode (idup i s).itable u (i :: held) pending :=
  inv.get rfl (if_pos pos).symm

theorem ilock_ok (inv : Refs w s.dinode s.itable u held pending) (h : ilock i s = .ok s') :
    Quiet s s' ∧ Refs w s'.dinode s'.itable u held pending ∧ (s.dinode i).type ≠ .free ∧
      (s.itable i).locked = false ∧
        s'.itable = update s.itable i ⟨(s.itable i).ref, true, true⟩ := by
  simp only [ilock] at h
  split at h
  · cases h
  · rename_i pos
    split at h
    · cases h
    · rename_i unlocked
      split at h
      · cases h
      · rename_i typed
        cases h
        have entered := inv.entered i
        have hasType : (s.dinode i).type ≠ .free := by
          cases valid : (s.itable i).valid with
          | true => exact entered.loaded valid (by omega)
          | false => exact fun isFree => typed ⟨valid, isFree⟩
        refine ⟨.setEntry .., inv.setEntry ?_ fun _ _ => rfl, hasType, by simpa using unlocked, rfl⟩
        exact ⟨entered.refs, fun _ _ => ⟨rfl, by show 0 < (s.itable i).ref; omega⟩,
          fun _ _ => hasType, entered.used⟩

theorem iunlock_ok (inv : Refs w s.dinode s.itable u held pending) (h : iunlock i s = .ok s') :
    Quiet s s' ∧ Refs w s'.dinode s'.itable u held pending := by
  simp only [iunlock] at h
  split at h
  · cases h
  · cases h
    refine ⟨.setEntry .., inv.setEntry ?_ fun _ _ => rfl⟩
    exact ⟨(inv.entered i).refs, (inv.entered i).kept, (inv.entered i).loaded, (inv.entered i).used⟩

/-- Giving a reference back may free the inode, and changes no other. -/
theorem iput_ok (inv : Refs w s.dinode s.itable u (i :: held) pending) (h : iput i s = .ok s') :
    Refs w s'.dinode s'.itable u held pending ∧ s'.ftable = s.ftable ∧ s'.proc = s.proc ∧
      ∀ j, j ≠ i → s'.dinode j = s.dinode j := by
  simp only [iput] at h
  split at h
  · rename_i last
    split at h
    · cases h
    · cases h
      exact ⟨inv.putFree last.1 last.2.1 last.2.2, rfl, rfl, fun j other => update_of_ne other ..⟩
  · rename_i more
    cases h
    refine ⟨inv.put fun hasType none => ?_, rfl, rfl, fun _ _ => rfl⟩
    obtain ⟨valid, pos⟩ := (inv.entered i).kept hasType none
    by_contra one
    exact more ⟨by omega, valid, none⟩

/-- While all inodes without links have users, giving up another reference frees nothing. -/
theorem iput_settled (inv : Refs w s.dinode s.itable u (i :: held) pending)
    (settled : Settled s.dinode u) (h : iput i s = .ok s') :
    Quiet s s' ∧ Refs w s'.dinode s'.itable u held pending := by
  have rest := (iput_ok inv h).1
  simp only [iput] at h
  split at h
  · rename_i last
    have entered := inv.entered i
    have refs := entered.refs
    rw [List.count_cons_self] at refs
    have hasType := entered.loaded last.2.1 (by omega)
    have := settled i hasType last.2.2
    omega
  · cases h
    exact ⟨.setEntry .., rest⟩

theorem iunlockput_ok (inv : Refs w s.dinode s.itable u (i :: held) pending)
    (h : iunlockput i s = .ok s') :
    Refs w s'.dinode s'.itable u held pending ∧ s'.ftable = s.ftable ∧ s'.proc = s.proc ∧
      ∀ j, j ≠ i → s'.dinode j = s.dinode j := by
  obtain ⟨t, unlock, put⟩ := bind_eq_ok.mp h
  obtain ⟨quiet, inv⟩ := iunlock_ok inv unlock
  obtain ⟨inv, ftable, proc, others⟩ := iput_ok inv put
  exact ⟨inv, ftable.trans quiet.ftable, proc.trans quiet.proc,
    fun j other => (others j other).trans (congrFun quiet.dinode j)⟩

theorem iunlockput_settled (inv : Refs w s.dinode s.itable u (i :: held) pending)
    (settled : Settled s.dinode u) (h : iunlockput i s = .ok s') :
    Quiet s s' ∧ Refs w s'.dinode s'.itable u held pending := by
  obtain ⟨t, unlock, put⟩ := bind_eq_ok.mp h
  obtain ⟨quiet, inv⟩ := iunlock_ok inv unlock
  obtain ⟨quiet', inv⟩ := iput_settled inv (quiet.dinode ▸ settled) put
  exact ⟨quiet.trans quiet', inv⟩

theorem held_pos (inv : Refs w s.dinode s.itable u held pending) (there : i ∈ held) :
    0 < (s.itable i).ref := by
  have refs := (inv.entered i).refs
  have := List.count_pos_iff.mpr there
  omega

theorem dirlookup_ok {dp : Inum n} {name : Name} {r : Option (Nat × Inum n)}
    (inv : Refs w s.dinode s.itable u held pending) (h : dirlookup dp name s = .ok (r, s')) :
    (s.dinode dp).type = .dir ∧ r = lookup (s.dinode dp).dirents name ∧ Quiet s s' ∧
      Refs w s'.dinode s'.itable u ((r.map Prod.snd).toList ++ held) pending ∧ Stays s s' := by
  unfold dirlookup at h
  split at h
  · cases h
  · rename_i isDir
    have isDir := not_not.mp isDir
    split at h
    · rename_i none
      cases h
      exact ⟨isDir, none.symm, .refl s, inv, fun _ => ⟨rfl, fun _ => rfl⟩⟩
    · rename_i k inum found
      obtain ⟨t, get, same⟩ := bind_eq_ok.mp h
      cases same
      obtain ⟨quiet, inv, stays⟩ := iget_ok inv get
      exact ⟨isDir, found.symm, quiet, inv, stays⟩

end Functions

/-- Where a path leads from a directory, by the entries alone. -/
def follow (disk : Disk n) (parent : Bool) : Nat → Inum n → Path → Option (Inum n × Name)
  | 0, _, _ => none
  | rounds + 1, ip, path =>
    match skipelem path with
    | none => if parent then none else some (ip, [])
    | some (name, path) =>
      if (disk ip).type ≠ .dir then none
      else if parent ∧ path = [] then some (ip, name)
      else match lookup (disk ip).dirents name with
        | none => none
        | some (_, next) => follow disk parent rounds next path

/-- Where `namex` starts. -/
def start (proc : Fin (m + 1) → Proc n) (p : Fin (m + 1)) (path : Path) : Option (Inum n) :=
  if path.head? = some slash then some ROOTINO else (proc p).cwd

/-- Where a path of process `p` leads. -/
def resolve (s : State n m) (parent : Bool) (p : Fin (m + 1)) (path : Path) :
    Option (Inum n × Name) :=
  (start s.proc p path).bind fun ip => follow s.dinode parent (path.length + 1) ip path

section Paths

variable {w : Allotment n} {s s' : State n m} {u : Inum n → Nat} {held pending : List (Inum n)}

theorem namexLoop_ok {parent : Bool} {rounds : Nat} {ip : Inum n} {path : Path}
    {r : Option (Inum n × Name)} (inv : Refs w s.dinode s.itable u (ip :: held) pending)
    (settled : Settled s.dinode u) (h : namexLoop parent rounds ip path s = .ok (r, s')) :
    r = follow s.dinode parent rounds ip path ∧ Quiet s s' ∧
      Refs w s'.dinode s'.itable u ((r.map Prod.fst).toList ++ held) pending := by
  induction rounds generalizing ip path s with
  | zero => cases h
  | succ rounds ih =>
    unfold namexLoop at h
    unfold follow
    rcases elem : skipelem path with _ | ⟨name, path'⟩
    · simp only [elem] at h ⊢
      split at h
      · rename_i isParent
        obtain ⟨t, put, same⟩ := bind_eq_ok.mp h
        cases same
        obtain ⟨quiet, inv⟩ := iput_settled inv settled put
        exact ⟨by simp [isParent], quiet, inv⟩
      · rename_i notParent
        cases h
        exact ⟨by simp [notParent], .refl _, inv⟩
    · simp only [elem] at h ⊢
      obtain ⟨t, lock, h⟩ := bind_eq_ok.mp h
      obtain ⟨quiet, inv, -⟩ := ilock_ok inv lock
      rw [← quiet.dinode]
      have settled : Settled t.dinode u := quiet.dinode ▸ settled
      split at h
      · rename_i notDir
        obtain ⟨t', put, same⟩ := bind_eq_ok.mp h
        cases same
        obtain ⟨quiet', inv⟩ := iunlockput_settled inv settled put
        exact ⟨by simp [notDir], quiet.trans quiet', inv⟩
      · rename_i isDir
        split at h
        · rename_i last
          obtain ⟨t', unlock, same⟩ := bind_eq_ok.mp h
          cases same
          obtain ⟨quiet', inv⟩ := iunlock_ok inv unlock
          exact ⟨by simp [not_not.mp isDir, last], quiet.trans quiet', inv⟩
        · rename_i more
          obtain ⟨⟨r', t'⟩, look, h⟩ := bind_eq_ok.mp h
          obtain ⟨-, found, quiet', inv, -⟩ := dirlookup_ok inv look
          have settled' : Settled t'.dinode u := quiet'.dinode ▸ settled
          rw [if_neg isDir, if_neg more, ← found]
          cases r' with
          | none =>
            obtain ⟨t'', put, same⟩ := bind_eq_ok.mp h
            cases same
            obtain ⟨quiet'', inv⟩ := iunlockput_settled inv settled' put
            exact ⟨rfl, (quiet.trans quiet').trans quiet'', inv⟩
          | some x =>
            obtain ⟨k, next⟩ := x
            obtain ⟨t'', put, h⟩ := bind_eq_ok.mp h
            obtain ⟨quiet'', inv⟩ := iunlockput_settled inv.swap settled' put
            have all := (quiet.trans quiet').trans quiet''
            obtain ⟨leads, last, inv⟩ := ih inv (quiet''.dinode ▸ settled') h
            refine ⟨?_, all.trans last, inv⟩
            rw [leads, quiet''.dinode, quiet'.dinode]

/-- The invariant of a state, with the references `held` and the names `pending`. -/
def RefsAgree (w : Allotment n) (s : State n m) (held pending : List (Inum n)) : Prop :=
  Refs w s.dinode s.itable (users s.ftable s.proc) held pending

theorem Quiet.users {s s' : State n m} (quiet : Quiet s s') :
    users s'.ftable s'.proc = users s.ftable s.proc := by
  rw [quiet.ftable, quiet.proc]

theorem RefsAgree.of_same {s s' : State n m}
    (inv : Refs w s'.dinode s'.itable (InodeReferences.users s.ftable s.proc) held pending)
    (ftable : s'.ftable = s.ftable) (proc : s'.proc = s.proc) : RefsAgree w s' held pending := by
  rw [RefsAgree, ftable, proc]
  exact inv

theorem RefsAgree.of_quiet {s s' : State n m}
    (inv : Refs w s'.dinode s'.itable (InodeReferences.users s.ftable s.proc) held pending)
    (quiet : Quiet s s') : RefsAgree w s' held pending :=
  .of_same inv quiet.ftable quiet.proc

theorem users_of_cwd {p : Fin (m + 1)} {i : Inum n} (h : (s.proc p).cwd = some i) :
    0 < users s.ftable s.proc i := by
  have counted := Tallies.le_sum (cwdUse i) s.proc p
  rw [cwdUse, if_pos h] at counted
  unfold InodeReferences.users
  omega

theorem namexStart_ok {p : Fin (m + 1)} {path : Path} {ip : Inum n}
    (inv : RefsAgree w s held pending) (h : namexStart p path s = .ok (ip, s')) :
    start s.proc p path = some ip ∧ Quiet s s' ∧ RefsAgree w s' (ip :: held) pending := by
  unfold namexStart at h
  unfold start
  split at h
  · rename_i absolute
    obtain ⟨t, get, same⟩ := bind_eq_ok.mp h
    cases same
    obtain ⟨quiet, inv, -⟩ := iget_ok inv get
    exact ⟨if_pos absolute, quiet, .of_quiet inv quiet⟩
  · rename_i relative
    rw [if_neg relative]
    split at h
    · cases h
    · rename_i cwd here
      cases h
      have pos := users_of_cwd here
      have refs := (inv.entered ip).refs
      exact ⟨here, .setEntry .., idup_ok inv (by omega)⟩

theorem namex_ok {p : Fin (m + 1)} {path : Path} {parent : Bool} {r : Option (Inum n × Name)}
    (inv : RefsAgree w s held pending) (settled : Settled s.dinode (users s.ftable s.proc))
    (h : namex p path parent s = .ok (r, s')) :
    r = resolve s parent p path ∧ Quiet s s' ∧
      RefsAgree w s' ((r.map Prod.fst).toList ++ held) pending := by
  obtain ⟨⟨ip, t⟩, first, loop⟩ := bind_eq_ok.mp h
  obtain ⟨here, quiet, inv⟩ := namexStart_ok inv first
  rw [← quiet.dinode, ← quiet.users] at settled
  obtain ⟨leads, quiet', inv⟩ := namexLoop_ok inv settled loop
  refine ⟨?_, quiet.trans quiet', .of_quiet inv quiet'⟩
  rw [resolve, here, leads, quiet.dinode]
  rfl

theorem nameiparent_ok {p : Fin (m + 1)} {path : Path} {r : Option (Inum n × Name)}
    (inv : RefsAgree w s held pending) (settled : Settled s.dinode (users s.ftable s.proc))
    (h : nameiparent p path s = .ok (r, s')) :
    r = resolve s true p path ∧ Quiet s s' ∧
      RefsAgree w s' ((r.map Prod.fst).toList ++ held) pending :=
  namex_ok inv settled h

theorem namei_ok {p : Fin (m + 1)} {path : Path} {r : Option (Inum n)}
    (inv : RefsAgree w s held pending) (settled : Settled s.dinode (users s.ftable s.proc))
    (h : namei p path s = .ok (r, s')) :
    r = (resolve s false p path).map Prod.fst ∧ Quiet s s' ∧
      RefsAgree w s' (r.toList ++ held) pending := by
  obtain ⟨⟨r', t⟩, walk, same⟩ := bind_eq_ok.mp h
  cases same
  obtain ⟨leads, quiet, inv⟩ := namex_ok inv settled walk
  exact ⟨by rw [leads], quiet, inv⟩

/-- Where a path leads depends on the types and entries of the inodes alone. -/
theorem follow_congr {disk disk' : Disk n} (type : ∀ i, (disk' i).type = (disk i).type)
    (dirents : ∀ i, (disk' i).dirents = (disk i).dirents) (parent : Bool) (rounds : Nat)
    (ip : Inum n) (path : Path) :
    follow disk' parent rounds ip path = follow disk parent rounds ip path := by
  induction rounds generalizing ip path with
  | zero => rfl
  | succ rounds ih => simp only [follow, type, dirents, ih]

theorem skipelem_shorter {path rest : Path} {name : Name} (h : skipelem path = some (name, rest)) :
    rest.length < path.length := by
  simp only [skipelem] at h
  split at h
  · cases h
  · rename_i some
    cases h
    obtain ⟨c, cs, hc⟩ := List.exists_cons_of_ne_nil some
    have first : c ≠ slash := by
      have := List.head?_dropWhile_not (· = slash) path
      rw [hc] at this
      simpa using this
    have suffix := (List.dropWhile_suffix (l := path) (· = slash)).length_le
    have kept := (List.dropWhile_suffix (l := cs) (· ≠ slash)).length_le
    have rest := (List.dropWhile_suffix (l := cs.dropWhile (· ≠ slash)) (· = slash)).length_le
    rw [hc, List.dropWhile_cons_of_pos (by simpa using first)]
    rw [hc, List.length_cons] at suffix
    omega

theorem ilock_ends {i : Inum n} : ilock i s ≠ .error .endless := by
  simp only [ilock]
  split
  · simp
  · split
    · simp
    · split <;> simp

theorem iunlock_ends {i : Inum n} : iunlock i s ≠ .error .endless := by
  simp only [iunlock]
  split <;> simp

theorem iput_ends {i : Inum n} : iput i s ≠ .error .endless := by
  simp only [iput]
  split
  · split <;> simp
  · simp

theorem iunlockput_ends {i : Inum n} : iunlockput i s ≠ .error .endless :=
  bind_ne_error iunlock_ends fun _ => iput_ends

theorem iget_ends {i : Inum n} : iget i s ≠ .error .endless := by
  simp only [iget]
  split
  · simp
  · split <;> simp

theorem dirlookup_ends {dp : Inum n} {name : Name} : dirlookup dp name s ≠ .error .endless := by
  unfold dirlookup
  split
  · simp
  · split
    · simp
    · exact bind_ne_error iget_ends fun _ => by simp [pure, Except.pure]

theorem namexLoop_ends {parent : Bool} {rounds : Nat} {ip : Inum n} {path : Path}
    (enough : path.length < rounds) : namexLoop parent rounds ip path s ≠ .error .endless := by
  induction rounds generalizing ip path s with
  | zero => omega
  | succ rounds ih =>
    unfold namexLoop
    split
    · split
      · exact bind_ne_error iput_ends fun _ => by simp [pure, Except.pure]
      · simp
    · rename_i name rest elem
      have shorter := skipelem_shorter elem
      refine bind_ne_error ilock_ends fun t => ?_
      split
      · exact bind_ne_error iunlockput_ends fun _ => by simp [pure, Except.pure]
      · split
        · exact bind_ne_error iunlock_ends fun _ => by simp [pure, Except.pure]
        · refine bind_ne_error dirlookup_ends fun ⟨r, t⟩ => ?_
          cases r with
          | none => exact bind_ne_error iunlockput_ends fun _ => by simp [pure, Except.pure]
          | some next => exact bind_ne_error iunlockput_ends fun t => ih (by omega)

/-- `namex` always comes to an end of its path. -/
theorem namex_ends {p : Fin (m + 1)} {path : Path} {parent : Bool} :
    namex p path parent s ≠ .error .endless := by
  refine bind_ne_error ?_ fun x => namexLoop_ends (Nat.lt_succ_self _)
  unfold namexStart
  split
  · exact bind_ne_error iget_ends fun _ => by simp [pure, Except.pure]
  · split <;> simp

end Paths

end InodeReferences
