import Xv6.InodeReferences

/-!
# Making an inode

`create` gives a new inode its name, or frees it again. While its name is
missing the inode is known only to the call, so the state is the one before
with this inode and its table entry written in.
-/

namespace InodeCreation
open DirectoryCalls Function InodeReferences LinkCounts Outcomes SlotTables

variable {n m : Nat} {w : Allotment n}

/-- The path leads to a directory that has been removed only if it has the name already. -/
def Namable (s : State n m) (p : Fin (m + 1)) (path : Path) : Prop :=
  ∀ dp name, resolve s true p path = some (dp, name) →
    lookup (s.dinode dp).dirents name = none → (s.dinode dp).nlink ≠ 0

/-- The path is that of a new name. -/
def Unnamed (s : State n m) (p : Fin (m + 1)) (path : Path) : Prop :=
  ∃ dp name, resolve s true p path = some (dp, name) ∧ lookup (s.dinode dp).dirents name = none

/-- The numbers allotted let the call make an inode of this type. -/
def Allotted (w : Allotment n) (s : State n m) (p : Fin (m + 1)) (path : Path)
    (type : InodeType) : Prop :=
  Unnamed s p path → ∀ ip, nextInum s.dinode = some ip →
    (type = .file → w.file ip) ∧ (type = .dir → ¬ w.clean ip)

instance (s : State n m) (p : Fin (m + 1)) (path : Path) : Decidable (Namable s p path) :=
  decidable_of_iff (∀ x ∈ resolve s true p path, lookup (s.dinode x.1).dirents x.2 = none →
      (s.dinode x.1).nlink ≠ 0)
    ⟨fun h dp name there => h (dp, name) there, fun h x there => h x.1 x.2 there⟩

instance (s : State n m) (p : Fin (m + 1)) (path : Path) : Decidable (Unnamed s p path) :=
  decidable_of_iff (∃ x ∈ resolve s true p path, lookup (s.dinode x.1).dirents x.2 = none)
    ⟨fun ⟨x, there, new⟩ => ⟨x.1, x.2, there, new⟩,
      fun ⟨dp, name, there, new⟩ => ⟨(dp, name), there, new⟩⟩

/-- `writei` of the entry fails or adds it. -/
theorem dirlink_ok {s t : State n m} {room : Bool} {dp ip : Inum n} {name : Name} {r : Int}
    (none : lookup (s.dinode dp).dirents name = none)
    (few : (s.dinode dp).dirents.length ≤ MAXDIRENTS) (h : dirlink room dp name ip s = .ok (r, t)) :
    (r < 0 ∧ t = s) ∨ (r = 0 ∧ (added ⟨ip, name⟩ (s.dinode dp).dirents).length ≤ MAXDIRENTS ∧
      t = s.setInode dp
        { s.dinode dp with dirents := added ⟨ip, name⟩ (s.dinode dp).dirents }) := by
  obtain ⟨⟨r', t'⟩, look, h⟩ := bind_eq_ok.mp h
  unfold dirlookup at look
  split at look
  · cases look
  · rw [none] at look
    cases look
    simp only at h
    split at h
    · cases h
      exact .inl ⟨by decide, rfl⟩
    · rename_i l written
      cases h
      have fits := writeDirent_few few written
      rw [writeDirent_some written] at fits ⊢
      exact .inr ⟨rfl, fits, rfl⟩

section Fresh

variable {s t : State n m} {ip dp : Inum n} {d : Dinode n} {name : Name}

/-- The state with a new inode, locked by the call. -/
def fresh (s : State n m) (ip : Inum n) (d : Dinode n) : State n m :=
  { s with dinode := update s.dinode ip d, itable := update s.itable ip ⟨1, true, true⟩ }

@[simp] theorem fresh_dinode_self : (fresh s ip d).dinode ip = d := update_self ..

@[simp] theorem fresh_itable_self : (fresh s ip d).itable ip = ⟨1, true, true⟩ := update_self ..

theorem fresh_dinode_other (other : dp ≠ ip) : (fresh s ip d).dinode dp = s.dinode dp :=
  update_of_ne other ..

@[simp] theorem fresh_setInode (d' : Dinode n) : (fresh s ip d).setInode ip d' = fresh s ip d' := by
  simp [fresh, State.setInode]

@[simp] theorem fresh_setLinks (k : BitVec 16) :
    (fresh s ip d).setLinks ip k = fresh s ip { d with nlink := k } := by
  simp [State.setLinks]

theorem setInode_dinode : (s.setInode dp d).dinode dp = d := update_self ..

theorem setInode_setLinks (k : BitVec 16) :
    (s.setInode dp d).setLinks dp k = s.setInode dp { d with nlink := k } := by
  simp [State.setLinks, State.setInode]

theorem ialloc_ok {type : InodeType} {r : Option (Inum n)} (h : ialloc type s = .ok (r, t)) :
    (r = none ∧ t = s) ∨ ∃ ip, r = some ip ∧ nextInum s.dinode = some ip ∧ ip ≠ 0 ∧
      (s.dinode ip).type = .free ∧ iget ip (s.setInode ip ⟨type, 0, 0, 0, []⟩) = .ok t := by
  unfold ialloc at h
  split at h
  · cases h
    exact .inl ⟨rfl, rfl⟩
  · rename_i ip found
    obtain ⟨t', get, same⟩ := bind_eq_ok.mp h
    cases same
    have isFree := List.find?_some found
    simp only [decide_eq_true_eq] at isFree
    exact .inr ⟨ip, rfl, found, isFree.1, isFree.2, get⟩

theorem iget_unused (unused : (s.itable ip).ref = 0) (h : iget ip s = .ok t) :
    t = s.setEntry ip ⟨1, false, (s.itable ip).locked⟩ := by
  simp only [iget] at h
  split at h
  · omega
  · split at h
    · cases h
      rfl
    · cases h

theorem ilock_eq (h : ilock ip s = .ok t) :
    t = s.setEntry ip ⟨(s.itable ip).ref, true, true⟩ := by
  simp only [ilock] at h
  split at h
  · cases h
  · split at h
    · cases h
    · split at h
      · cases h
      · cases h
        rfl

/-- `ialloc` and `ilock` of an inode that nobody refers to. -/
theorem fresh_of_lock {type : InodeType} {t' : State n m} (unused : (s.itable ip).ref = 0)
    (get : iget ip (s.setInode ip ⟨type, 0, 0, 0, []⟩) = .ok t) (lock : ilock ip t = .ok t') :
    t' = fresh s ip ⟨type, 0, 0, 0, []⟩ := by
  obtain rfl := iget_unused (s := s.setInode ip ⟨type, 0, 0, 0, []⟩) unused get
  obtain rfl := ilock_eq lock
  simp [fresh, State.setEntry, State.setInode]

theorem createDots_ok {type : InodeType} {room : Bool} {r : Int} (real : ip ≠ 0)
    (empty : d.dirents = [])
    (h : createDots type room ip dp (fresh s ip d) = .ok (r, t)) :
    (r < 0 ∧ ∃ d', t = fresh s ip d') ∨ (r = 0 ∧ t = fresh s ip
      { d with dirents := if type = .dir then [⟨ip, dot⟩, ⟨dp, dotdot⟩] else [] }) := by
  unfold createDots at h
  split at h
  · rename_i isDir
    obtain ⟨⟨r', t'⟩, first, h⟩ := bind_eq_ok.mp h
    have noDot : lookup ((fresh s ip d).dinode ip).dirents dot = none := by
      simp [empty, lookup]
    have few : ((fresh s ip d).dinode ip).dirents.length ≤ MAXDIRENTS := by simp [empty]
    rcases dirlink_ok noDot few first with ⟨failed, rfl⟩ | ⟨rfl, -, rfl⟩
    · simp only [if_pos failed] at h
      cases h
      exact .inl ⟨failed, d, rfl⟩
    · simp only [fresh_dinode_self, fresh_setInode, empty, added, put_nil] at h
      have noDotdot : lookup [(⟨ip, dot⟩ : Dirent n)] dotdot = none := by
        simp [lookup, dot, dotdot]
      have few : ([⟨ip, dot⟩] : List (Dirent n)).length ≤ MAXDIRENTS := by simp [MAXDIRENTS]
      rcases dirlink_ok (by simpa using noDotdot) (by simpa using few) h with
        ⟨failed, rfl⟩ | ⟨rfl, -, rfl⟩
      · exact .inl ⟨failed, _, rfl⟩
      · right
        refine ⟨rfl, ?_⟩
        rw [if_pos isDir]
        simp [added, put, List.findIdx_cons, real]
  · rename_i notDir
    cases h
    right
    have same : ({ d with dirents := [] } : Dinode n) = d := by rw [← empty]
    rw [if_neg notDir, same]
    exact ⟨rfl, rfl⟩

/-- A failing `create` frees the inode. -/
theorem createFail_ok {r : Option (Inum n)} (h : createFail ip dp (fresh s ip d) = .ok (r, t)) :
    r = none ∧ iunlockput dp { s with
      dinode := update s.dinode ip { d with type := .free, nlink := 0, dirents := [] }
      itable := update s.itable ip ⟨0, false, false⟩ } = .ok t := by
  obtain ⟨t', put, h⟩ := bind_eq_ok.mp h
  obtain ⟨t'', put', same⟩ := bind_eq_ok.mp h
  cases same
  obtain ⟨t₁, unlock, put⟩ := bind_eq_ok.mp put
  simp only [fresh_setLinks, iunlock, fresh_itable_self, Bool.true_eq_false, Nat.lt_irrefl,
    or_self, if_false] at unlock
  cases unlock
  simp [iput, State.setEntry, State.setInode, fresh] at put
  cases put
  exact ⟨rfl, put'⟩

/-- Writing a new inode into the disk and the table, and a name for it into `dp`. -/
theorem fresh_named {x y : Dinode n} (inv : RefsAgree w s [dp] []) (other : dp ≠ ip)
    (isFree : (s.dinode ip).type = .free) (sound : Sound w (update (update s.dinode ip x) dp y) [])
    (typeX : x.type ≠ .free) (linksX : x.nlink ≠ 0) (typeY : y.type = (s.dinode dp).type)
    (linksY : y.nlink ≠ 0) : RefsAgree w ((fresh s ip x).setInode dp y) [dp, ip] [] := by
  have unused := (inv.entered ip).used
  refine ⟨sound, fun i => ?_⟩
  show Entered (update (update s.dinode ip x) dp y i) (update s.itable ip ⟨1, true, true⟩ i)
    (users s.ftable s.proc i) (List.count i [dp, ip])
  rcases eq_or_ne i dp with rfl | hdp
  · rw [update_self, update_of_ne other]
    have entered := (inv.entered i).congr (by rw [typeY]) (fun none => absurd none linksY)
    simpa [other.symm] using entered
  · rw [update_of_ne hdp]
    rcases eq_or_ne i ip with rfl | hip
    · have nobody : users s.ftable s.proc i = 0 := by
        by_contra some
        exact unused (Nat.pos_of_ne_zero some) isFree
      rw [update_self, update_self]
      constructor
      · simp [nobody, hdp.symm]
      · exact fun _ none => absurd none linksX
      · exact fun _ _ => typeX
      · exact fun _ => typeX
    · rw [update_of_ne hip, update_of_ne hip]
      simpa [hdp.symm, hip.symm] using inv.entered i

/-- Giving the new inode up again leaves no trace. -/
theorem createFail_inv {r : Option (Inum n)} (inv : RefsAgree w s [dp] []) (other : dp ≠ ip)
    (real : ip ≠ 0) (isFree : (s.dinode ip).type = .free)
    (h : createFail ip dp (fresh s ip d) = .ok (r, t)) :
    r = none ∧ RefsAgree w t [] [] ∧ t.ftable = s.ftable ∧ t.proc = s.proc := by
  obtain ⟨rfl, put⟩ := createFail_ok h
  have sound :
      Sound w (update s.dinode ip { d with type := .free, nlink := 0, dirents := [] }) [] := by
    have none := inv.sound.free ip isFree
    refine inv.sound.replace ?_ (by simp) rfl (fun _ => rfl) (.of_free rfl rfl) real
      (by rw [none]) (fun _ _ => rfl)
    exact fun linked => linked.2 none
  have inv' : RefsAgree w { s with
      dinode := update s.dinode ip { d with type := .free, nlink := 0, dirents := [] }
      itable := update s.itable ip ⟨0, false, false⟩ } [dp] [] := by
    have entered := inv.entered ip
    have nobody : users s.ftable s.proc ip = 0 := by
      by_contra some
      exact entered.used (Nat.pos_of_ne_zero some) isFree
    refine ⟨sound, fun i => ?_⟩
    show Entered (update s.dinode ip { d with type := .free, nlink := 0, dirents := [] } i)
      (update s.itable ip ⟨0, false, false⟩ i) (users s.ftable s.proc i) (List.count i [dp])
    rcases eq_or_ne i ip with rfl | hip
    · rw [update_self, update_self]
      constructor
      · simp [nobody, other]
      · exact fun typed => absurd rfl typed
      · exact fun valid => by cases valid
      · intro pos
        omega
    · rw [update_of_ne hip, update_of_ne hip]
      exact inv.entered i
  obtain ⟨inv', ftable, proc, -⟩ := iunlockput_ok inv' put
  exact ⟨rfl, .of_same inv' ftable proc, ftable, proc⟩

/-- A new directory has its name in `dp`, and `dp` one link more for its "..". -/
theorem fresh_dir {major minor : BitVec 16} (inv : RefsAgree w s [dp] []) (other : dp ≠ ip)
    (linked : Linked (s.dinode dp)) (real : ip ≠ 0) (isFree : (s.dinode ip).type = .free)
    (soiled : ¬ w.clean ip) (unnamed : lookup (s.dinode dp).dirents name = none)
    (few : (added ⟨ip, name⟩ (s.dinode dp).dirents).length ≤ MAXDIRENTS) :
    RefsAgree w ((fresh s ip ⟨.dir, major, minor, 1, [⟨ip, dot⟩, ⟨dp, dotdot⟩]⟩).setInode dp
      { s.dinode dp with
        dirents := added ⟨ip, name⟩ (s.dinode dp).dirents
        nlink := (s.dinode dp).nlink + 1 }) [dp, ip] [] := by
  have room := inv.sound.room linked
  have sound := inv.sound.addDirName major minor isFree real soiled linked room unnamed few
  have linksY : (s.dinode dp).nlink + 1 ≠ 0 := by
    intro zero
    have more := toInt_succ room
    have nonneg := inv.sound.links_nonneg (inv.sound.real_of_linked linked)
    rw [eq_zero_iff.mp zero] at more
    omega
  exact fresh_named inv other isFree sound (by simp) (by simp) rfl linksY

/-- A new inode of another type has its name in `dp`. -/
theorem fresh_file {type : InodeType} {major minor : BitVec 16} (inv : RefsAgree w s [dp] [])
    (other : dp ≠ ip) (linked : Linked (s.dinode dp)) (real : ip ≠ 0)
    (isFree : (s.dinode ip).type = .free) (typed : type ≠ .free) (notDir : type ≠ .dir)
    (filed : type = .file → w.file ip) (unnamed : lookup (s.dinode dp).dirents name = none)
    (few : (added ⟨ip, name⟩ (s.dinode dp).dirents).length ≤ MAXDIRENTS) :
    RefsAgree w ((fresh s ip ⟨type, major, minor, 1, []⟩).setInode dp
      { s.dinode dp with dirents := added ⟨ip, name⟩ (s.dinode dp).dirents }) [dp, ip] [] := by
  have sound₁ : Sound w (update s.dinode ip ⟨type, major, minor, 1, []⟩) [ip] := by
    have none := inv.sound.free ip isFree
    have formed : Formed w ip ⟨type, major, minor, 1, []⟩ :=
      ⟨by simp, filed, fun isDir => absurd isDir notDir, fun isDir => absurd isDir notDir⟩
    refine inv.sound.replace ?_ notDir rfl (fun free => absurd free typed) formed real ?_ ?_
    · exact fun linked => linked.2 none
    · rw [none]
      simp
    · intro j away
      simp [away.symm]
  have same : update s.dinode ip ⟨type, major, minor, 1, []⟩ dp = s.dinode dp :=
    update_of_ne other ..
  have sound := sound₁.addName (by simpa using notDir) (same ▸ linked) (same ▸ unnamed)
    (same ▸ few)
  rw [same] at sound
  exact fresh_named inv other isFree sound typed (by simp) rfl linked.2

/-- The new inode has its name, and `create` gives `dp` back. -/
theorem fresh_put {x y : Dinode n} (inv : RefsAgree w ((fresh s ip x).setInode dp y) [dp, ip] [])
    (other : dp ≠ ip) (typed : x.type ≠ .free)
    (put : iunlockput dp ((fresh s ip x).setInode dp y) = .ok t) :
    RefsAgree w t [ip] [] ∧ t.ftable = s.ftable ∧ t.proc = s.proc ∧
      ∀ i, some ip = some i → (t.dinode i).type ≠ .free := by
  obtain ⟨inv, ftable, proc, others⟩ := iunlockput_ok inv put
  refine ⟨.of_same inv ftable proc, ftable, proc, ?_⟩
  intro i same
  cases same
  have new : t.dinode ip = x := by
    rw [others ip other.symm]
    show update (update s.dinode ip x) dp y ip = x
    rw [update_of_ne other.symm, update_self]
  rwa [new]

/-- The rest of `create` names the new inode or gives it up. -/
theorem createLinks_ok {type : InodeType} {major minor : BitVec 16} {roomIp roomDp : Bool}
    {r : Option (Inum n)} (inv : RefsAgree w s [dp] []) (isDir : (s.dinode dp).type = .dir)
    (real : ip ≠ 0) (isFree : (s.dinode ip).type = .free) (typed : type ≠ .free)
    (unnamed : lookup (s.dinode dp).dirents name = none) (links : (s.dinode dp).nlink ≠ 0)
    (filed : type = .file → w.file ip) (soiled : type = .dir → ¬ w.clean ip)
    (h : createLinks type major minor roomIp roomDp ip dp name
      (fresh s ip ⟨type, 0, 0, 0, []⟩) = .ok (r, t)) :
    RefsAgree w t r.toList [] ∧ t.ftable = s.ftable ∧ t.proc = s.proc ∧
      ∀ i, r = some i → (t.dinode i).type ≠ .free := by
  have other : dp ≠ ip := by
    rintro rfl
    rw [isDir] at isFree
    cases isFree
  have linked : Linked (s.dinode dp) := ⟨isDir, links⟩
  have failed : ∀ {d : Dinode n}, createFail ip dp (fresh s ip d) = .ok (r, t) →
      RefsAgree w t r.toList [] ∧ t.ftable = s.ftable ∧ t.proc = s.proc ∧
        ∀ i, r = some i → (t.dinode i).type ≠ .free := by
    intro d fail
    obtain ⟨rfl, inv, ftable, proc⟩ := createFail_inv inv other real isFree fail
    exact ⟨inv, ftable, proc, fun i h => by cases h⟩
  unfold createLinks at h
  simp only [fresh_dinode_self, fresh_setInode] at h
  obtain ⟨⟨r₁, t₁⟩, dots, h⟩ := bind_eq_ok.mp h
  rcases createDots_ok real rfl dots with ⟨none, d', rfl⟩ | ⟨rfl, rfl⟩
  · simp only [if_pos none] at h
    exact failed h
  · simp only [Int.lt_irrefl, if_false] at h
    obtain ⟨⟨r₂, t₂⟩, entry, h⟩ := bind_eq_ok.mp h
    rcases dirlink_ok (by rwa [fresh_dinode_other other])
      (by rw [fresh_dinode_other other]; exact (inv.sound.formed dp).few) entry with
      ⟨none, rfl⟩ | ⟨rfl, few, rfl⟩
    · simp only [if_pos none] at h
      exact failed h
    · rw [fresh_dinode_other other] at few
      simp only [Int.lt_irrefl, if_false, fresh_dinode_other other] at h
      obtain ⟨t₃, put, same⟩ := bind_eq_ok.mp h
      cases same
      split at put
      · rename_i newDir
        subst newDir
        simp only [setInode_setLinks, setInode_dinode] at put
        exact fresh_put (fresh_dir inv other linked real isFree (soiled rfl) unnamed few) other
          typed put
      · rename_i notDir
        exact fresh_put (fresh_file inv other linked real isFree typed notDir filed unnamed few)
          other typed put

end Fresh

/-- What `create` does to a state in which no reference is held. -/
theorem create_ok {s t : State n m} {p : Fin (m + 1)} {path : Path} {type : InodeType}
    {major minor : BitVec 16} {roomIp roomDp : Bool} {r : Option (Inum n)}
    (inv : RefsAgree w s [] []) (typed : type ≠ .free) (namable : Namable s p path)
    (allotted : Allotted w s p path type)
    (h : create p path type major minor roomIp roomDp s = .ok (r, t)) :
    RefsAgree w t r.toList [] ∧ t.ftable = s.ftable ∧ t.proc = s.proc ∧
      ∀ i, r = some i → (t.dinode i).type ≠ .free := by
  have settled := inv.settled
  obtain ⟨⟨r₁, s₁⟩, walk, h⟩ := bind_eq_ok.mp h
  obtain ⟨leads, quiet₁, inv₁⟩ := nameiparent_ok inv settled walk
  cases r₁ with
  | none =>
    cases h
    exact ⟨inv₁, quiet₁.ftable, quiet₁.proc, fun i h => by cases h⟩
  | some x =>
    obtain ⟨dp, name⟩ := x
    obtain ⟨s₂, lock, h⟩ := bind_eq_ok.mp h
    obtain ⟨quiet₂, inv₂, -⟩ := ilock_ok inv₁ lock
    have inv₂ : RefsAgree w s₂ [dp] [] := .of_quiet inv₂ quiet₂
    have before := quiet₁.trans quiet₂
    obtain ⟨⟨r₃, s₃⟩, look, h⟩ := bind_eq_ok.mp h
    obtain ⟨isDir, found, quiet₃, inv₃, -⟩ := dirlookup_ok inv₂ look
    have all := before.trans quiet₃
    cases r₃ with
    | some x =>
      obtain ⟨k, ip⟩ := x
      have inv₃ : RefsAgree w s₃ [ip, dp] [] := .of_quiet inv₃ quiet₃
      have settled₃ : Settled s₃.dinode (users s₃.ftable s₃.proc) := by
        rw [all.dinode, all.users]
        exact settled
      obtain ⟨s₄, put, h⟩ := bind_eq_ok.mp h
      obtain ⟨quiet₄, inv₄⟩ := iunlockput_settled inv₃.swap settled₃ put
      have inv₄ : RefsAgree w s₄ [ip] [] := .of_quiet inv₄ quiet₄
      obtain ⟨s₅, lock, h⟩ := bind_eq_ok.mp h
      obtain ⟨quiet₅, inv₅, typed, -⟩ := ilock_ok inv₄ lock
      have inv₅ : RefsAgree w s₅ [ip] [] := .of_quiet inv₅ quiet₅
      have all := (all.trans quiet₄).trans quiet₅
      split at h
      · cases h
        refine ⟨inv₅, all.ftable, all.proc, ?_⟩
        rintro _ ⟨⟩
        rwa [quiet₅.dinode]
      · obtain ⟨s₆, put, same⟩ := bind_eq_ok.mp h
        cases same
        obtain ⟨inv₆, ftable, proc, -⟩ := iunlockput_ok inv₅ put
        exact ⟨.of_same inv₆ ftable proc, ftable.trans all.ftable, proc.trans all.proc,
          fun i h => by cases h⟩
    | none =>
      have inv₃ : RefsAgree w s₃ [dp] [] := .of_quiet inv₃ quiet₃
      rw [← quiet₃.dinode] at isDir found
      have unnamed : lookup (s.dinode dp).dirents name = none := by
        rw [← all.dinode]
        exact found.symm
      obtain ⟨⟨r₄, s₄⟩, alloc, rest⟩ := bind_eq_ok.mp h
      rcases ialloc_ok alloc with ⟨rfl, rfl⟩ | ⟨ip, rfl, next, real, isFree, get⟩
      · obtain ⟨s₅, put, same⟩ := bind_eq_ok.mp rest
        cases same
        obtain ⟨inv₅, ftable, proc, -⟩ := iunlockput_ok inv₃ put
        exact ⟨.of_same inv₅ ftable proc, ftable.trans all.ftable, proc.trans all.proc,
          fun i h => by cases h⟩
      · obtain ⟨s₅, lock, rest⟩ := bind_eq_ok.mp rest
        have unused : (s₃.itable ip).ref = 0 := by
          have entered := inv₃.entered ip
          have nobody : users s₃.ftable s₃.proc ip = 0 := by
            by_contra some
            exact entered.used (Nat.pos_of_ne_zero some) isFree
          have other : dp ≠ ip := by
            rintro rfl
            rw [isDir] at isFree
            cases isFree
          have refs := entered.refs
          rwa [nobody, List.count_singleton, if_neg (by simpa using other)] at refs
        obtain rfl := fresh_of_lock unused get lock
        have links : (s₃.dinode dp).nlink ≠ 0 := by
          rw [all.dinode]
          exact namable dp name leads.symm unnamed
        obtain ⟨filed, soiled⟩ := allotted ⟨dp, name, leads.symm, unnamed⟩ ip (all.dinode ▸ next)
        obtain ⟨inv, ftable, proc, kind⟩ :=
          createLinks_ok inv₃ isDir real isFree typed found.symm links filed soiled rest
        exact ⟨inv, ftable.trans all.ftable, proc.trans all.proc, kind⟩

end InodeCreation
