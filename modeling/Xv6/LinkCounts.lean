import Mathlib.Algebra.BigOperators.Group.Finset.Piecewise
import Xv6.DirectoryCalls
import Xv6.Lib.Tallies
import Xv6.Lib.Updates

/-!
# Link counts and directory entries

What the inodes on disk have in common: a link count is the number of entries
that name the inode in directories which have a name themselves, the entry ".."
of a subdirectory included. An entry that a call has still to write is counted
as well.
-/

namespace LinkCounts
open DirectoryCalls Function SlotTables Updates

variable {n : Nat}

abbrev Disk (n : Nat) := Inum n → Dinode n

/-- A directory that has not been removed. -/
def Linked (d : Dinode n) : Prop := d.type = .dir ∧ d.nlink ≠ 0

instance (d : Dinode n) : Decidable (Linked d) := inferInstanceAs (Decidable (_ ∧ _))

/-- The entries after "." and "..". -/
def entries (d : Dinode n) : List (Dirent n) := d.dirents.drop 2

/-- The number that "..", the second entry, has. -/
def parentOf (d : Dinode n) : Inum n := (d.dirents[1]?.map Dirent.inum).getD noInum

/-- How often a list of entries names an inode. -/
def tally (i : Inum n) (l : List (Dirent n)) : Nat := l.countP fun de => de.inum = i

/-- How often a directory names an inode, as long as it is linked. -/
def names (i : Inum n) (d : Dinode n) : Nat := if Linked d then tally i (entries d) else 0

/-- Whether a linked directory has the inode as its parent. -/
def backs (i : Inum n) (d : Dinode n) : Nat := if Linked d ∧ parentOf d = i then 1 else 0

def named (disk : Disk n) (i : Inum n) : Nat := ∑ d, names i (disk d)
def subdirs (disk : Disk n) (i : Inum n) : Nat := ∑ d, backs i (disk d)

/-- The entries of directory `i`. -/
structure Shaped (i : Inum n) (d : Dinode n) : Prop where
  front : d.dirents.take 2 = [⟨i, dot⟩, ⟨parentOf d, dotdot⟩]
  parent : parentOf d ≠ 0
  plain : ∀ de ∈ entries d, de.inum ≠ 0 → de.name ≠ dot ∧ de.name ≠ dotdot
  empty : d.nlink = 0 → ∀ de ∈ entries d, de.inum = 0

/-- The numbers that files may have, and those that no ".." of a removed directory has. Both
stay as they are while a call runs. -/
structure Allotment (n : Nat) where
  file : Inum n → Prop
  clean : Inum n → Prop

/-- What inode `i` is, with respect to the numbers allotted. -/
structure Formed (w : Allotment n) (i : Inum n) (d : Dinode n) : Prop where
  few : d.dirents.length ≤ MAXDIRENTS
  filed : d.type = .file → w.file i
  apart : d.type = .dir → ¬ w.clean i
  left : d.type = .dir → d.nlink = 0 → ¬ w.clean (parentOf d)

/-- The law of the inodes on disk, with the entries that are still to be written. -/
structure Sound (w : Allotment n) (disk : Disk n) (pending : List (Inum n)) : Prop where
  count : ∀ i, i ≠ 0 → (disk i).nlink.toInt = named disk i + subdirs disk i + pending.count i
  free : ∀ i, (disk i).type = .free → (disk i).nlink = 0
  plain : ∀ i, (disk i).type ≠ .dir → (disk i).dirents = []
  unused : (disk 0).type = .free
  shape : ∀ i, (disk i).type = .dir → Shaped i (disk i)
  home : ∀ i, Linked (disk i) → i ≠ ROOTINO →
    named disk i = 1 ∧ 0 < names i (disk (parentOf (disk i)))
  root : Linked (disk ROOTINO) ∧ named disk ROOTINO = 0 ∧ parentOf (disk ROOTINO) = ROOTINO
  formed : ∀ i, Formed w i (disk i)

theorem toInt_succ {k : BitVec 16} (h : k ≠ 32767) : (k + 1).toInt = k.toInt + 1 := by
  have one : (1 : BitVec 16).toNat = 1 := rfl
  have bound := k.isLt
  have small : k.toNat ≠ 32767 := fun same => h (BitVec.eq_of_toNat_eq same)
  simp only [BitVec.toInt_eq_toNat_cond, BitVec.toNat_add, one]
  split <;> split <;> omega

theorem toInt_pred {k : BitVec 16} (h : 1 ≤ k.toInt) : (k - 1).toInt = k.toInt - 1 := by
  have one : (1 : BitVec 16).toNat = 1 := rfl
  have bound := k.isLt
  simp only [BitVec.toInt_eq_toNat_cond, BitVec.toNat_sub, one] at h ⊢
  split at h <;> split <;> omega

theorem eq_zero_iff {k : BitVec 16} : k = 0 ↔ k.toInt = 0 := by
  constructor
  · rintro rfl
    rfl
  · intro h
    exact BitVec.eq_of_toInt_eq (by simpa using h)

theorem names_unlinked {d : Dinode n} (out : ¬ Linked d) (i : Inum n) : names i d = 0 := by
  simp [names, out]

theorem backs_unlinked {d : Dinode n} (out : ¬ Linked d) (i : Inum n) : backs i d = 0 := by
  simp [backs, out]

theorem named_update (disk : Disk n) (x : Inum n) (d : Dinode n) (i : Inum n) :
    named (update disk x d) i + names i (disk x) = named disk i + names i d :=
  Tallies.sum_update (names i) disk x d

theorem subdirs_update (disk : Disk n) (x : Inum n) (d : Dinode n) (i : Inum n) :
    subdirs (update disk x d) i + backs i (disk x) = subdirs disk i + backs i d :=
  Tallies.sum_update (backs i) disk x d

/-- Two inodes change, as when a directory comes or goes. -/
theorem named_update₂ (disk : Disk n) {x y : Inum n} (other : x ≠ y) (d e : Dinode n)
    (i : Inum n) :
    named (update (update disk x d) y e) i + names i (disk x) + names i (disk y)
      = named disk i + names i d + names i e := by
  have first := named_update disk x d i
  have second := named_update (update disk x d) y e i
  rw [update_of_ne other.symm] at second
  omega

theorem subdirs_update₂ (disk : Disk n) {x y : Inum n} (other : x ≠ y) (d e : Dinode n)
    (i : Inum n) :
    subdirs (update (update disk x d) y e) i + backs i (disk x) + backs i (disk y)
      = subdirs disk i + backs i d + backs i e := by
  have first := subdirs_update disk x d i
  have second := subdirs_update (update disk x d) y e i
  rw [update_of_ne other.symm] at second
  omega

theorem names_le (disk : Disk n) (i d : Inum n) : names i (disk d) ≤ named disk i :=
  Tallies.le_sum (names i) disk d

theorem backs_le (disk : Disk n) (i d : Inum n) : backs i (disk d) ≤ subdirs disk i :=
  Tallies.le_sum (backs i) disk d

theorem exists_of_named {disk : Disk n} {i : Inum n} (h : named disk i ≠ 0) :
    ∃ d, 0 < names i (disk d) := by
  by_contra none
  simp only [not_exists, not_lt, Nat.le_zero] at none
  exact h (Finset.sum_eq_zero fun d _ => none d)

theorem exists_of_subdirs {disk : Disk n} {i : Inum n} (h : subdirs disk i ≠ 0) :
    ∃ d, Linked (disk d) ∧ parentOf (disk d) = i := by
  by_contra none
  simp only [not_exists, not_and] at none
  refine h (Finset.sum_eq_zero fun d _ => ?_)
  unfold backs
  rw [if_neg]
  rintro ⟨linked, parent⟩
  exact none d linked parent

theorem linked_of_names {i : Inum n} {d : Dinode n} (h : 0 < names i d) : Linked d := by
  by_contra out
  rw [names_unlinked out] at h
  omega

theorem parentOf_front {d e : Dinode n} (front : e.dirents.take 2 = d.dirents.take 2) :
    parentOf e = parentOf d := by
  have second : (e.dirents.take 2)[1]? = (d.dirents.take 2)[1]? := by rw [front]
  simp only [List.getElem?_take, Nat.one_lt_ofNat, if_true] at second
  unfold parentOf
  rw [second]

theorem backs_front {d e : Dinode n} (front : e.dirents.take 2 = d.dirents.take 2)
    (linked : Linked d) (linked' : Linked e) (i : Inum n) : backs i e = backs i d := by
  simp [backs, linked, linked', parentOf_front front]

theorem Shaped.relist {i : Inum n} {d e : Dinode n} (shaped : Shaped i d)
    (front : e.dirents.take 2 = d.dirents.take 2)
    (plain : ∀ de ∈ entries e, de.inum ≠ 0 → de.name ≠ dot ∧ de.name ≠ dotdot)
    (linked : Linked e) : Shaped i e := by
  have parent := parentOf_front front
  refine ⟨?_, parent ▸ shaped.parent, plain, fun gone => absurd gone linked.2⟩
  rw [parent]
  exact front.trans shaped.front

theorem forall_update₂ {disk : Disk n} {ip dp : Inum n} {x y : Dinode n}
    {p : Inum n → Dinode n → Prop} (new : p dp y) (old : p ip x) (rest : ∀ j, p j (disk j)) :
    ∀ j, p j (update (update disk ip x) dp y j) := by
  intro j
  rcases eq_or_ne j dp with rfl | hdp
  · rwa [update_self]
  · rw [update_of_ne hdp]
    exact (forall_update_iff disk p).mpr ⟨old, fun j _ => rest j⟩ j

theorem Formed.of_free {w : Allotment n} {i : Inum n} {d : Dinode n} (isFree : d.type = .free)
    (empty : d.dirents = []) : Formed w i d := by
  refine ⟨by simp [empty], ?_, ?_, ?_⟩ <;> simp [isFree]

/-- An inode that is no directory gets another link count. -/
theorem Formed.relink {w : Allotment n} {i : Inum n} {d : Dinode n} (formed : Formed w i d)
    (notDir : d.type ≠ .dir) (k : BitVec 16) : Formed w i { d with nlink := k } :=
  ⟨formed.few, formed.filed, formed.apart, fun isDir => absurd isDir notDir⟩

/-- A linked directory gets other entries. -/
theorem Formed.relist {w : Allotment n} {i : Inum n} {d e : Dinode n} (formed : Formed w i d)
    (linked : Linked d) (linked' : Linked e) (few : e.dirents.length ≤ MAXDIRENTS) :
    Formed w i e where
  few := few
  filed isFile := by
    rw [linked'.1] at isFile
    cases isFile
  apart _ := formed.apart linked.1
  left _ gone := absurd gone linked'.2

namespace Sound

variable {w : Allotment n} {disk : Disk n} {pending : List (Inum n)}

theorem retag {w' : Allotment n} (sound : Sound w disk pending)
    (formed : ∀ i, Formed w' i (disk i)) : Sound w' disk pending :=
  { sound with formed := formed }

theorem links_nonneg (sound : Sound w disk pending) {i : Inum n} (real : i ≠ 0) :
    0 ≤ (disk i).nlink.toInt := by
  have := sound.count i real
  omega

theorem root_ne_zero : (ROOTINO : Inum n) ≠ 0 := by
  simp [ROOTINO]

theorem real_of_dir (sound : Sound w disk pending) {i : Inum n} (isDir : (disk i).type = .dir) :
    i ≠ 0 := by
  rintro rfl
  have := sound.unused
  rw [isDir] at this
  cases this

theorem real_of_linked (sound : Sound w disk pending) {i : Inum n} (linked : Linked (disk i)) :
    i ≠ 0 := sound.real_of_dir linked.1

/-- An inode without links is named nowhere. -/
theorem unnamed (sound : Sound w disk pending) {i : Inum n} (real : i ≠ 0)
    (none : (disk i).nlink = 0) :
    named disk i = 0 ∧ subdirs disk i = 0 ∧ pending.count i = 0 := by
  have count := sound.count i real
  rw [eq_zero_iff.mp none] at count
  omega

/-- The parent of a linked directory is a directory. -/
theorem parent_dir (sound : Sound w disk pending) {d : Inum n} (linked : Linked (disk d)) :
    (disk (parentOf (disk d))).type = .dir := by
  rcases eq_or_ne d ROOTINO with rfl | away
  · rw [sound.root.2.2]
    exact linked.1
  · exact (linked_of_names (sound.home d linked away).2).1

/-- No ".." counts for a file. -/
theorem file_childless (sound : Sound w disk pending) {i : Inum n}
    (notDir : (disk i).type ≠ .dir) : subdirs disk i = 0 := by
  by_contra some
  obtain ⟨d, linked, parent⟩ := exists_of_subdirs some
  exact notDir (parent ▸ sound.parent_dir linked)

/-- An entry of a linked directory names an inode that has not been removed. -/
theorem names_of_entry (sound : Sound w disk pending) {dp i : Inum n} {de : Dirent n}
    (isDir : (disk dp).type = .dir) (there : de ∈ entries (disk dp)) (real : de.inum ≠ 0)
    (same : de.inum = i) : 0 < names i (disk dp) := by
  have linked : Linked (disk dp) := by
    refine ⟨isDir, fun gone => ?_⟩
    exact real ((sound.shape dp isDir).empty gone de there)
  unfold names tally
  rw [if_pos linked]
  exact List.countP_pos_iff.mpr ⟨de, there, by simpa using same⟩

/-- Replacing an inode that is no linked directory by one that is no directory. -/
theorem replace (sound : Sound w disk pending) {i : Inum n} {d : Dinode n} {rest : List (Inum n)}
    (out : ¬ Linked (disk i)) (type : d.type ≠ .dir) (empty : d.dirents = [])
    (free : d.type = .free → d.nlink = 0) (formed : Formed w i d) (real : i ≠ 0)
    (links : d.nlink.toInt - rest.count i = (disk i).nlink.toInt - pending.count i)
    (others : ∀ j, j ≠ i → rest.count j = pending.count j) :
    Sound w (update disk i d) rest := by
  have out' : ¬ Linked d := fun linked => type linked.1
  have hn : ∀ j, named (update disk i d) j = named disk j := by
    intro j
    have := named_update disk i d j
    rw [names_unlinked out, names_unlinked out'] at this
    omega
  have hs : ∀ j, subdirs (update disk i d) j = subdirs disk j := by
    intro j
    have := subdirs_update disk i d j
    rw [backs_unlinked out, backs_unlinked out'] at this
    omega
  have same : ∀ j, Linked (update disk i d j) → update disk i d j = disk j := by
    intro j linked
    rcases eq_or_ne j i with rfl | other
    · rw [update_self] at linked
      exact absurd linked out'
    · exact update_of_ne other _ _
  have notRoot : ROOTINO ≠ i := by
    rintro rfl
    exact out sound.root.1
  constructor
  case count =>
    intro j hj
    rw [hn, hs]
    rcases eq_or_ne j i with rfl | other
    · have := sound.count j hj
      rw [update_self]
      omega
    · rw [update_of_ne other, others j other]
      exact sound.count j hj
  case free =>
    exact (forall_update_iff disk fun _ d => d.type = .free → d.nlink = 0).mpr
      ⟨free, fun j _ => sound.free j⟩
  case plain =>
    exact (forall_update_iff disk fun _ d => d.type ≠ .dir → d.dirents = []).mpr
      ⟨fun _ => empty, fun j _ => sound.plain j⟩
  case unused =>
    rw [update_of_ne real.symm]
    exact sound.unused
  case shape =>
    exact (forall_update_iff disk fun j d => d.type = .dir → Shaped j d).mpr
      ⟨fun isDir => absurd isDir type, fun j _ => sound.shape j⟩
  case home =>
    intro j linked other
    have kept := same j linked
    rw [kept] at linked ⊢
    rw [hn]
    obtain ⟨once, there⟩ := sound.home j linked other
    refine ⟨once, ?_⟩
    rwa [update_of_ne]
    intro parent
    rw [parent, names_unlinked out] at there
    omega
  case root =>
    rw [hn, update_of_ne notRoot]
    exact sound.root
  case formed =>
    exact (forall_update_iff disk fun j d => Formed w j d).mpr ⟨formed, fun j _ => sound.formed j⟩

/-- Rewriting the entries of a linked directory after the first two, when each name that
comes or goes is one still to be written, and of no directory. -/
theorem relist (sound : Sound w disk pending) {dp : Inum n} {l : List (Dirent n)}
    {rest : List (Inum n)} (linked : Linked (disk dp)) (few : l.length ≤ MAXDIRENTS)
    (front : l.take 2 = (disk dp).dirents.take 2)
    (plain : ∀ de ∈ l.drop 2, de.inum ≠ 0 → de.name ≠ dot ∧ de.name ≠ dotdot)
    (balance : ∀ j, j ≠ 0 →
      tally j (l.drop 2) + rest.count j = tally j (entries (disk dp)) + pending.count j)
    (dirs : ∀ j, (disk j).type = .dir → tally j (l.drop 2) = tally j (entries (disk dp))) :
    Sound w (update disk dp { disk dp with dirents := l }) rest := by
  set d : Dinode n := { disk dp with dirents := l } with hd
  have linked' : Linked d := linked
  have parent : parentOf d = parentOf (disk dp) := parentOf_front front
  have hnew : ∀ j, names j d = tally j (l.drop 2) := fun j => if_pos linked'
  have hold : ∀ j, names j (disk dp) = tally j (entries (disk dp)) := fun j => if_pos linked
  have hn : ∀ j, named (update disk dp d) j + tally j (entries (disk dp))
      = named disk j + tally j (l.drop 2) := by
    intro j
    have := named_update disk dp d j
    rwa [hnew, hold] at this
  have hs : ∀ j, subdirs (update disk dp d) j = subdirs disk j := by
    intro j
    have change := subdirs_update disk dp d j
    rw [backs_front front linked linked'] at change
    omega
  have type : ∀ j, (update disk dp d j).type = (disk j).type := by
    exact update_reads Dinode.type rfl
  have nlink : ∀ j, (update disk dp d j).nlink = (disk j).nlink := by
    exact update_reads Dinode.nlink rfl
  have parents : ∀ j, parentOf (update disk dp d j) = parentOf (disk j) := by
    exact update_reads parentOf parent
  have links : ∀ j, Linked (update disk dp d j) ↔ Linked (disk j) := by
    intro j
    unfold Linked
    rw [type, nlink]
  constructor
  case count =>
    intro j hj
    have count := sound.count j hj
    have change := hn j
    have balance := balance j hj
    rw [nlink, hs]
    omega
  case free =>
    intro j
    rw [type, nlink]
    exact sound.free j
  case plain =>
    intro j notDir
    rw [type] at notDir
    rw [update_of_ne]
    · exact sound.plain j notDir
    · rintro rfl
      exact notDir linked.1
  case unused =>
    rw [type]
    exact sound.unused
  case shape =>
    intro j isDir
    rw [type] at isDir
    rcases eq_or_ne j dp with rfl | other
    · rw [update_self]
      exact (sound.shape j isDir).relist front plain linked'
    · rw [update_of_ne other]
      exact sound.shape j isDir
  case home =>
    intro j isLinked other
    rw [links] at isLinked
    obtain ⟨once, there⟩ := sound.home j isLinked other
    have same := dirs j isLinked.1
    rw [parents]
    refine ⟨by have := hn j; omega, ?_⟩
    rcases eq_or_ne (parentOf (disk j)) dp with heq | away
    · rw [heq, update_self, hnew, same, ← hold, ← heq]
      exact there
    · rwa [update_of_ne away]
  case root =>
    obtain ⟨rootLinked, rootNamed, rootParent⟩ := sound.root
    rw [links, parents]
    refine ⟨rootLinked, ?_, rootParent⟩
    have same := dirs ROOTINO rootLinked.1
    have := hn ROOTINO
    omega
  case formed =>
    exact (forall_update_iff disk fun j d => Formed w j d).mpr
      ⟨(sound.formed dp).relist linked linked' few, fun j _ => sound.formed j⟩

theorem sum_tally (l : List (Dirent n)) : ∑ i, tally i l = l.length := by
  induction l with
  | nil => simp [tally]
  | cons de l ih =>
    have first : ∀ i, tally i (de :: l) = tally i l + if de.inum = i then 1 else 0 := by
      simp [tally, List.countP_cons]
    simp only [first, Finset.sum_add_distrib, ih, Finset.sum_ite_eq, Finset.mem_univ, if_true,
      List.length_cons]

/-- Each subdirectory has a name of its own, and the root is its own parent. -/
theorem subdirs_le (sound : Sound w disk pending) {dp : Inum n} (linked : Linked (disk dp)) :
    subdirs disk dp ≤ 1 + (entries (disk dp)).length := by
  have each : ∀ d, backs dp (disk d) ≤
      (if ROOTINO = d then 1 else 0) + tally d (entries (disk dp)) := by
    intro d
    unfold backs
    split
    · rename_i child
      obtain ⟨linkedD, parent⟩ := child
      rcases eq_or_ne d ROOTINO with rfl | away
      · simp
      · have there := (sound.home d linkedD away).2
        rw [parent, names, if_pos linked] at there
        omega
    · omega
  have total := Finset.sum_le_sum fun d (_ : d ∈ Finset.univ) => each d
  rw [Finset.sum_add_distrib, sum_tally, Finset.sum_ite_eq, if_pos (Finset.mem_univ _)] at total
  exact total

/-- A directory holds too few entries for its link count to reach its largest value. -/
theorem room (sound : Sound w disk []) {dp : Inum n} (linked : Linked (disk dp)) :
    (disk dp).nlink ≠ 32767 := by
  intro most
  have count := sound.count dp (sound.real_of_linked linked)
  have top : (32767 : BitVec 16).toInt = 32767 := rfl
  rw [most, top, List.count_nil] at count
  have children := sound.subdirs_le linked
  have few := (sound.formed dp).few
  have shorter : (entries (disk dp)).length ≤ (disk dp).dirents.length := by simp [entries]
  have once : named disk dp ≤ 1 := by
    rcases eq_or_ne dp ROOTINO with rfl | away
    · rw [sound.root.2.1]
      omega
    · exact (sound.home dp linked away).1.le
  simp only [MAXDIRENTS] at few
  omega

section Directories
variable {ip dp : Inum n} {x y : Dinode n}

/-- The two inodes that change are the directory `ip`, without entries, and its parent
`dp`, where the other names stay. No other directory notices. -/
theorem home_others (sound : Sound w disk pending) (other : ip ≠ dp) (notRoot : ip ≠ ROOTINO)
    (bare : ∀ j, j ≠ 0 → names j (disk ip) = 0) (bare' : ∀ j, j ≠ 0 → names j x = 0)
    (linked : Linked (disk dp)) (linked' : Linked y) (parent : parentOf y = parentOf (disk dp))
    (kept : ∀ j, j ≠ 0 → j ≠ ip → names j y = names j (disk dp)) :
    (∀ j, j ≠ ip → Linked (update (update disk ip x) dp y j) → j ≠ ROOTINO →
      named (update (update disk ip x) dp y) j = 1 ∧
      0 < names j (update (update disk ip x) dp y
        (parentOf (update (update disk ip x) dp y j)))) ∧
    Linked (update (update disk ip x) dp y ROOTINO) ∧
    named (update (update disk ip x) dp y) ROOTINO = 0 ∧
    parentOf (update (update disk ip x) dp y ROOTINO) = ROOTINO := by
  set disk' := update (update disk ip x) dp y with hdisk
  have at_dp : disk' dp = y := update_self ..
  have elsewhere : ∀ j, j ≠ ip → j ≠ dp → disk' j = disk j := by
    intro j hip hdp
    rw [hdisk, update_of_ne hdp, update_of_ne hip]
  have links : ∀ j, j ≠ ip → (Linked (disk' j) ↔ Linked (disk j)) := by
    intro j hip
    rcases eq_or_ne j dp with rfl | hdp
    · rw [at_dp]
      exact iff_of_true linked' linked
    · rw [elsewhere j hip hdp]
  have parents : ∀ j, j ≠ ip → parentOf (disk' j) = parentOf (disk j) := by
    intro j hip
    rcases eq_or_ne j dp with rfl | hdp
    · rw [at_dp, parent]
    · rw [elsewhere j hip hdp]
  have hn : ∀ j, j ≠ 0 → j ≠ ip → named disk' j = named disk j := by
    intro j hj hip
    have change := named_update₂ disk other x y j
    rw [← hdisk, bare j hj, bare' j hj, kept j hj hip] at change
    omega
  constructor
  · intro j hip isLinked notRoot
    rw [links j hip] at isLinked
    have real := sound.real_of_linked isLinked
    obtain ⟨once, there⟩ := sound.home j isLinked notRoot
    rw [hn j real hip, parents j hip]
    refine ⟨once, ?_⟩
    rcases eq_or_ne (parentOf (disk j)) dp with heq | hdp
    · rw [heq, at_dp, kept j real hip, ← heq]
      exact there
    · rw [elsewhere _ _ hdp]
      · exact there
      · intro heq
        rw [heq, bare j real] at there
        omega
  · rw [links _ notRoot.symm, parents _ notRoot.symm, hn _ root_ne_zero notRoot.symm]
    exact sound.root

/-- A directory comes or goes: `ip`, which has no entries before and after, and `dp` change. -/
theorem exchange (sound : Sound w disk pending) (other : ip ≠ dp) (real : ip ≠ 0)
    (notRoot : ip ≠ ROOTINO) (bare : ∀ j, j ≠ 0 → names j (disk ip) = 0)
    (bare' : ∀ j, names j x = 0) (isDir : x.type = .dir) (linked : Linked (disk dp))
    (linked' : Linked y) (front : y.dirents.take 2 = (disk dp).dirents.take 2)
    (plain : ∀ de ∈ entries y, de.inum ≠ 0 → de.name ≠ dot ∧ de.name ≠ dotdot)
    (few : y.dirents.length ≤ MAXDIRENTS) (shaped : Shaped ip x) (formed : Formed w ip x)
    (kept : ∀ j, j ≠ 0 → j ≠ ip → names j y = names j (disk dp))
    (backs_ : ∀ j, j ≠ dp → backs j (disk ip) = 0) (backs' : ∀ j, j ≠ dp → backs j x = 0)
    (links : x.nlink.toInt + names ip (disk dp) = (disk ip).nlink.toInt + names ip y)
    (links' : y.nlink.toInt + backs dp (disk ip) = (disk dp).nlink.toInt + backs dp x)
    (home : Linked x → named (update (update disk ip x) dp y) ip = 1 ∧
      0 < names ip (update (update disk ip x) dp y (parentOf x))) :
    Sound w (update (update disk ip x) dp y) pending := by
  have realDp := sound.real_of_linked linked
  have named_ := named_update₂ disk other x y
  have subdirs_ := subdirs_update₂ disk other x y
  obtain ⟨homes, root⟩ := sound.home_others other notRoot bare (fun j _ => bare' j) linked linked'
    (parentOf_front front) kept
  constructor
  case count =>
    intro j hj
    have count := sound.count j hj
    have named := named_ j
    have subdirs := subdirs_ j
    rw [bare j hj, bare'] at named
    rw [backs_front front linked linked'] at subdirs
    rcases eq_or_ne j dp with rfl | hdp
    · rw [kept j hj other.symm] at named
      rw [update_self]
      omega
    · rw [backs_ j hdp, backs' j hdp] at subdirs
      rw [update_of_ne hdp]
      rcases eq_or_ne j ip with rfl | hip
      · rw [update_self]
        omega
      · rw [kept j hj hip] at named
        rw [update_of_ne hip]
        omega
  case free =>
    exact forall_update₂ (p := fun _ d => d.type = .free → d.nlink = 0)
      (fun isFree => by rw [linked'.1] at isFree; cases isFree)
      (fun isFree => by rw [isDir] at isFree; cases isFree) sound.free
  case plain =>
    exact forall_update₂ (p := fun _ d => d.type ≠ .dir → d.dirents = [])
      (fun notDir => absurd linked'.1 notDir) (fun notDir => absurd isDir notDir) sound.plain
  case unused =>
    rw [update_of_ne realDp.symm, update_of_ne real.symm]
    exact sound.unused
  case shape =>
    exact forall_update₂ (p := fun j d => d.type = .dir → Shaped j d)
      (fun _ => (sound.shape dp linked.1).relist front plain linked') (fun _ => shaped) sound.shape
  case home =>
    intro j isLinked away
    rcases eq_or_ne j ip with rfl | hip
    · rw [update_of_ne other, update_self] at isLinked ⊢
      exact home isLinked
    · exact homes j hip isLinked away
  case root => exact root
  case formed =>
    exact forall_update₂ ((sound.formed dp).relist linked linked' few) formed sound.formed

/-- A new directory gets its name in `dp`. -/
theorem addDir (sound : Sound w disk pending) {major minor : BitVec 16} {l : List (Dirent n)}
    (free : (disk ip).type = .free) (real : ip ≠ 0) (soiled : ¬ w.clean ip)
    (linked : Linked (disk dp)) (room : (disk dp).nlink ≠ 32767) (few : l.length ≤ MAXDIRENTS)
    (front : l.take 2 = (disk dp).dirents.take 2)
    (plain : ∀ de ∈ l.drop 2, de.inum ≠ 0 → de.name ≠ dot ∧ de.name ≠ dotdot)
    (adds : ∀ j, j ≠ 0 →
      tally j (l.drop 2) = tally j (entries (disk dp)) + if j = ip then 1 else 0) :
    Sound w (update (update disk ip ⟨.dir, major, minor, 1, [⟨ip, dot⟩, ⟨dp, dotdot⟩]⟩) dp
      { disk dp with dirents := l, nlink := (disk dp).nlink + 1 }) pending := by
  have other : ip ≠ dp := by
    rintro rfl
    rw [linked.1] at free
    cases free
  have out : ¬ Linked (disk ip) := by
    rintro ⟨isDir, -⟩
    rw [free] at isDir
    cases isDir
  have notRoot : ip ≠ ROOTINO := by
    rintro rfl
    exact out sound.root.1
  have realDp := sound.real_of_linked linked
  obtain ⟨unnamed, -, -⟩ := sound.unnamed real (sound.free ip free)
  set x : Dinode n := ⟨.dir, major, minor, 1, [⟨ip, dot⟩, ⟨dp, dotdot⟩]⟩ with hx
  set y : Dinode n := { disk dp with dirents := l, nlink := (disk dp).nlink + 1 } with hy
  have linkedX : Linked x := ⟨rfl, by simp [hx]⟩
  have more : y.nlink.toInt = (disk dp).nlink.toInt + 1 := toInt_succ room
  have linkedY : Linked y := by
    refine ⟨linked.1, fun none => ?_⟩
    have := sound.links_nonneg realDp
    rw [eq_zero_iff.mp none] at more
    omega
  have namesX : ∀ j, names j x = 0 := fun j => by simp [names, tally, entries, hx]
  have namesY : ∀ j, j ≠ 0 → names j y = names j (disk dp) + if j = ip then 1 else 0 := by
    intro j hj
    unfold names
    rw [if_pos linkedY, if_pos linked]
    exact adds j hj
  have there := namesY ip real
  rw [if_pos rfl] at there
  have backsX : ∀ j, backs j x = if j = dp then 1 else 0 := by
    intro j
    simp [backs, linkedX, show parentOf x = dp from rfl, eq_comm]
  have links : (disk ip).nlink.toInt = 0 := eq_zero_iff.mp (sound.free ip free)
  have one : x.nlink.toInt = 1 := by simp [hx]
  refine sound.exchange other real notRoot (fun j _ => names_unlinked out j) namesX rfl linked
    linkedY front plain few ⟨rfl, realDp, by simp [entries, hx], by simp [entries, hx]⟩ ?_ ?_
    (fun j _ => backs_unlinked out j) ?_ ?_ ?_ ?_
  · refine ⟨by simp [hx, MAXDIRENTS], fun isFile => ?_, fun _ => soiled, fun _ none => ?_⟩
    · cases isFile
    · exact absurd none linkedX.2
  · intro j hj hip
    rw [namesY j hj, if_neg hip, Nat.add_zero]
  · intro j hdp
    rw [backsX, if_neg hdp]
  · omega
  · rw [backs_unlinked out, backsX, if_pos rfl]
    omega
  · intro _
    have named := named_update₂ disk other x y ip
    rw [names_unlinked out, namesX, there] at named
    rw [show parentOf x = dp from rfl, update_self, there]
    omega

/-- A directory without entries is no parent. -/
theorem bare_childless (sound : Sound w disk pending) (notRoot : ip ≠ ROOTINO)
    (bare : ∀ j, j ≠ 0 → names j (disk ip) = 0) : subdirs disk ip = 0 := by
  by_contra some
  obtain ⟨j, linked, parent⟩ := exists_of_subdirs some
  rcases eq_or_ne j ROOTINO with rfl | away
  · exact notRoot (parent.symm.trans sound.root.2.2)
  · have child := (sound.home j linked away).2
    rw [parent, bare j (sound.real_of_linked linked)] at child
    omega

/-- Besides the ".." of a directory in `dp` there is the name of `dp`, or its own ".." for
the root. -/
theorem two_links (sound : Sound w disk pending) (linked : Linked (disk dp))
    (child : Linked (disk ip)) (parent : parentOf (disk ip) = dp) (other : ip ≠ dp) :
    2 ≤ (disk dp).nlink.toInt := by
  have count := sound.count dp (sound.real_of_linked linked)
  have back : backs dp (disk ip) = 1 := if_pos ⟨child, parent⟩
  rcases eq_or_ne dp ROOTINO with heq | away
  · have own : backs dp (disk dp) = 1 := by
      rw [heq]
      exact if_pos ⟨sound.root.1, sound.root.2.2⟩
    have := Tallies.add_le_sum (backs dp) disk other
    unfold subdirs at count
    omega
  · have := (sound.home dp linked away).1
    have := backs_le disk dp ip
    omega

/-- An empty directory loses its name in `dp`, and `dp` the link from "..". -/
theorem removeDir (sound : Sound w disk []) {l : List (Dirent n)} (isDir : (disk ip).type = .dir)
    (real : ip ≠ 0) (links : 1 ≤ (disk ip).nlink.toInt)
    (bare : ∀ de ∈ entries (disk ip), de.inum = 0) (other : ip ≠ dp)
    (there : 0 < names ip (disk dp)) (few : l.length ≤ MAXDIRENTS)
    (front : l.take 2 = (disk dp).dirents.take 2)
    (plain : ∀ de ∈ l.drop 2, de.inum ≠ 0 → de.name ≠ dot ∧ de.name ≠ dotdot)
    (drops : ∀ j, j ≠ 0 →
      tally j (l.drop 2) + (if j = ip then 1 else 0) = tally j (entries (disk dp))) :
    Sound w (update (update disk ip { disk ip with nlink := (disk ip).nlink - 1 }) dp
      { disk dp with dirents := l, nlink := (disk dp).nlink - 1 }) [] := by
  have linkedIp : Linked (disk ip) := by
    refine ⟨isDir, fun none => ?_⟩
    rw [eq_zero_iff.mp none] at links
    omega
  have linked : Linked (disk dp) := linked_of_names there
  have le := names_le disk ip dp
  have notRoot : ip ≠ ROOTINO := by
    rintro rfl
    have := sound.root.2.1
    omega
  have bareIp : ∀ j, j ≠ 0 → names j (disk ip) = 0 := by
    intro j hj
    unfold names tally
    rw [if_pos linkedIp, List.countP_eq_zero]
    intro de hde
    simpa [bare de hde] using hj.symm
  obtain ⟨once, home⟩ := sound.home ip linkedIp notRoot
  -- the only name of `ip` is the one in `dp`, so `dp` is its parent
  have parentIp : parentOf (disk ip) = dp := by
    by_contra away
    have := Tallies.add_le_sum (names ip) disk away
    unfold named at once
    omega
  have childless : subdirs disk ip = 0 := sound.bare_childless notRoot bareIp
  have count := sound.count ip real
  simp only [once, childless, List.count_nil] at count
  set x : Dinode n := { disk ip with nlink := (disk ip).nlink - 1 } with hx
  set y : Dinode n := { disk dp with dirents := l, nlink := (disk dp).nlink - 1 } with hy
  have noneX : x.nlink = 0 := eq_zero_iff.mpr ((toInt_pred links).trans (by omega))
  have outX : ¬ Linked x := fun linkedX => linkedX.2 noneX
  have backsIp : ∀ j, backs j (disk ip) = if j = dp then 1 else 0 := by
    intro j
    simp [backs, linkedIp, parentIp, eq_comm]
  have two := sound.two_links linked linkedIp parentIp other
  have fewer : y.nlink.toInt = (disk dp).nlink.toInt - 1 := toInt_pred (by omega)
  have linkedY : Linked y := by
    refine ⟨linked.1, fun none => ?_⟩
    rw [eq_zero_iff.mp none] at fewer
    omega
  have namesY : ∀ j, j ≠ 0 → names j y + (if j = ip then 1 else 0) = names j (disk dp) := by
    intro j hj
    unfold names
    rw [if_pos linkedY, if_pos linked]
    exact drops j hj
  have dropped := namesY ip real
  rw [if_pos rfl] at dropped
  have none := eq_zero_iff.mp noneX
  have shaped := sound.shape ip isDir
  have old := sound.formed ip
  refine sound.exchange other real notRoot bareIp (names_unlinked outX) isDir linked linkedY front
    plain few ⟨shaped.front, shaped.parent, shaped.plain, fun _ => bare⟩ ?_ ?_ ?_
    (fun j _ => backs_unlinked outX j) ?_ ?_ (fun isLinked => absurd isLinked outX)
  · refine ⟨old.few, old.filed, old.apart, fun _ _ => ?_⟩
    rw [show parentOf x = dp from parentIp]
    exact (sound.formed dp).apart linked.1
  · intro j hj hip
    have kept := namesY j hj
    rwa [if_neg hip] at kept
  · intro j hdp
    rw [backsIp, if_neg hdp]
  · omega
  · rw [backsIp, if_pos rfl, backs_unlinked outX]
    omega

end Directories

end Sound

theorem lookup_none {l : List (Dirent n)} {name : Name} (h : lookup l name = none) {de : Dirent n}
    (there : de ∈ l) (real : de.inum ≠ 0) : de.name ≠ name := by
  induction l with
  | nil => cases there
  | cons first rest ih =>
    unfold lookup at h
    split at h
    · cases h
    · rename_i differs
      have h := Option.map_eq_none_iff.mp h
      cases there with
      | head => exact fun same => differs ⟨real, same⟩
      | tail _ there => exact ih h there

theorem lookup_some {l : List (Dirent n)} {name : Name} {k : Nat} {i : Inum n}
    (h : lookup l name = some (k, i)) : l[k]? = some ⟨i, name⟩ ∧ i ≠ 0 := by
  induction l generalizing k with
  | nil => cases h
  | cons first rest ih =>
    unfold lookup at h
    split at h
    · rename_i found
      obtain ⟨real, rfl⟩ := found
      cases h
      exact ⟨rfl, real⟩
    · obtain ⟨⟨k', i'⟩, here, same⟩ := Option.map_eq_some_iff.mp h
      cases same
      exact ih here

/-- The entries of a directory once `de` is written to the first free one. -/
def added (de : Dirent n) (l : List (Dirent n)) : List (Dirent n) :=
  put (l.findIdx fun x => x.inum = noInum) de l

theorem writeDirent_some {room : Bool} {de : Dirent n} {l l' : List (Dirent n)}
    (h : writeDirent room (l.findIdx fun x => x.inum = 0) de l = some l') : l' = added de l := by
  unfold writeDirent at h
  split at h
  · exact (Option.some.inj h).symm
  · split at h
    · cases h
    · split at h
      · cases h
      · exact (Option.some.inj h).symm

theorem writeDirent_few {room : Bool} {de : Dirent n} {l l' : List (Dirent n)}
    (few : l.length ≤ MAXDIRENTS)
    (h : writeDirent room (l.findIdx fun x => x.inum = 0) de l = some l') :
    l'.length ≤ MAXDIRENTS := by
  unfold writeDirent at h
  split at h
  · rename_i inside
    cases h
    simpa [put, inside] using few
  · rename_i beyond
    split at h
    · cases h
    · rename_i short
      split at h
      · cases h
      · cases h
        simp only [put, if_neg beyond, List.length_append, List.length_singleton]
        omega

namespace Shaped

variable {i : Inum n} {d : Dinode n}

theorem split (shaped : Shaped i d) :
    d.dirents = ⟨i, dot⟩ :: ⟨parentOf d, dotdot⟩ :: entries d := by
  rw [← List.take_append_drop 2 d.dirents, shaped.front]
  rfl

/-- A name that is not there is neither "." nor "..". -/
theorem fresh (shaped : Shaped i d) (real : i ≠ 0) {name : Name}
    (none : lookup d.dirents name = none) : name ≠ dot ∧ name ≠ dotdot := by
  rw [shaped.split] at none
  constructor
  · exact (lookup_none none (List.mem_cons_self ..) real).symm
  · exact (lookup_none none (List.mem_cons_of_mem _ (List.mem_cons_self ..)) shaped.parent).symm

theorem added_eq (shaped : Shaped i d) (real : i ≠ 0) (de : Dirent n) :
    added de d.dirents = ⟨i, dot⟩ :: ⟨parentOf d, dotdot⟩ :: added de (entries d) := by
  have parent := shaped.parent
  unfold added
  rw [shaped.split]
  simp [List.findIdx_cons, real, parent]

/-- Another name is found among the entries after "." and "..". -/
theorem found (shaped : Shaped i d) {name : Name} {k : Nat} {j : Inum n}
    (h : lookup d.dirents name = some (k, j)) (notDot : name ≠ dot) (notDotdot : name ≠ dotdot) :
    ∃ k', k = k' + 2 ∧ (entries d)[k']? = some ⟨j, name⟩ ∧ j ≠ 0 := by
  obtain ⟨there, real⟩ := lookup_some h
  rw [shaped.split] at there
  match k with
  | 0 =>
    simp only [List.getElem?_cons_zero, Option.some.injEq, Dirent.mk.injEq] at there
    exact absurd there.2.symm notDot
  | 1 =>
    simp only [List.getElem?_cons_succ, List.getElem?_cons_zero, Option.some.injEq,
      Dirent.mk.injEq] at there
    exact absurd there.2.symm notDotdot
  | k' + 2 => exact ⟨k', rfl, by simpa using there, real⟩

end Shaped

theorem tally_added {j : Inum n} (real : j ≠ 0) (de : Dirent n) (l : List (Dirent n)) :
    tally j (added de l) = tally j l + if de.inum = j then 1 else 0 := by
  have := countP_put (fun x : Dirent n => decide (x.inum = 0))
    (fun x => decide (x.inum = j)) (fun b isFree => by
      have := of_decide_eq_true isFree
      simpa [this] using real.symm) de l
  simpa [tally, added] using this

theorem tally_cleared {j : Inum n} (real : j ≠ 0) {de : Dirent n} {l : List (Dirent n)} {k : Nat}
    (there : l[k]? = some de) :
    tally j (l.set k ⟨0, []⟩) + (if de.inum = j then 1 else 0) = tally j l := by
  have := countP_clear (p := fun x : Dirent n => decide (x.inum = j)) (a := ⟨0, []⟩) there
    (by simpa using real.symm)
  simpa [tally] using this

theorem plain_added {de : Dirent n} {l : List (Dirent n)}
    (plain : ∀ x ∈ l, x.inum ≠ 0 → x.name ≠ dot ∧ x.name ≠ dotdot)
    (fresh : de.name ≠ dot ∧ de.name ≠ dotdot) :
    ∀ x ∈ added de l, x.inum ≠ 0 → x.name ≠ dot ∧ x.name ≠ dotdot := by
  intro x hx real
  rcases mem_put hx with old | rfl
  · exact plain x old real
  · exact fresh

theorem plain_cleared {l : List (Dirent n)} {k : Nat}
    (plain : ∀ x ∈ l, x.inum ≠ 0 → x.name ≠ dot ∧ x.name ≠ dotdot) :
    ∀ x ∈ l.set k ⟨0, []⟩, x.inum ≠ 0 → x.name ≠ dot ∧ x.name ≠ dotdot := by
  intro x hx real
  rcases List.mem_or_eq_of_mem_set hx with old | rfl
  · exact plain x old real
  · exact absurd rfl real

namespace Sound

variable {w : Allotment n} {disk : Disk n} {ip dp : Inum n} {name : Name}

/-- A file gets the name it was promised. -/
theorem addName {pending : List (Inum n)} (sound : Sound w disk (ip :: pending))
    (notDir : (disk ip).type ≠ .dir) (linked : Linked (disk dp))
    (none : lookup (disk dp).dirents name = none)
    (few : (added ⟨ip, name⟩ (disk dp).dirents).length ≤ MAXDIRENTS) :
    Sound w (update disk dp
      { disk dp with dirents := added ⟨ip, name⟩ (disk dp).dirents }) pending := by
  have shaped := sound.shape dp linked.1
  have realDp := sound.real_of_linked linked
  have new := shaped.added_eq realDp ⟨ip, name⟩
  have tallies : ∀ j, j ≠ 0 → tally j ((added ⟨ip, name⟩ (disk dp).dirents).drop 2)
      = tally j (entries (disk dp)) + if ip = j then 1 else 0 := by
    intro j hj
    rw [new]
    exact tally_added hj _ _
  refine sound.relist linked few ?_ ?_ ?_ ?_
  · rw [new, shaped.front]
    rfl
  · rw [new]
    exact plain_added shaped.plain (shaped.fresh realDp none)
  · intro j hj
    rw [tallies j hj, List.count_cons]
    simp only [beq_iff_eq]
    omega
  · intro j isDir
    have hj := sound.real_of_dir isDir
    rw [tallies j hj, if_neg, Nat.add_zero]
    rintro rfl
    exact notDir isDir

/-- A new directory gets its name. -/
theorem addDirName {pending : List (Inum n)} (sound : Sound w disk pending)
    (major minor : BitVec 16) (free : (disk ip).type = .free) (real : ip ≠ 0) (soiled : ¬ w.clean ip)
    (linked : Linked (disk dp)) (room : (disk dp).nlink ≠ 32767)
    (none : lookup (disk dp).dirents name = none)
    (few : (added ⟨ip, name⟩ (disk dp).dirents).length ≤ MAXDIRENTS) :
    Sound w (update (update disk ip ⟨.dir, major, minor, 1, [⟨ip, dot⟩, ⟨dp, dotdot⟩]⟩) dp
      { disk dp with
        dirents := added ⟨ip, name⟩ (disk dp).dirents
        nlink := (disk dp).nlink + 1 }) pending := by
  have shaped := sound.shape dp linked.1
  have realDp := sound.real_of_linked linked
  have new := shaped.added_eq realDp ⟨ip, name⟩
  refine sound.addDir free real soiled linked room few ?_ ?_ ?_
  · rw [new, shaped.front]
    rfl
  · rw [new]
    exact plain_added shaped.plain (shaped.fresh realDp none)
  · intro j hj
    rw [new]
    simpa [eq_comm] using tally_added hj ⟨ip, name⟩ (entries (disk dp))

section Removal
variable {k : Nat}

/-- A file loses a name, which its link count still has. -/
theorem dropName (sound : Sound w disk []) (isDir : (disk dp).type = .dir)
    (found : lookup (disk dp).dirents name = some (k, ip)) (notDot : name ≠ dot)
    (notDotdot : name ≠ dotdot) (notDir : (disk ip).type ≠ .dir) :
    Sound w (update disk dp
      { disk dp with dirents := (disk dp).dirents.set k ⟨0, []⟩ }) [ip] := by
  have shaped := sound.shape dp isDir
  obtain ⟨k, rfl, there, real⟩ := shaped.found found notDot notDotdot
  have linked : Linked (disk dp) :=
    linked_of_names (sound.names_of_entry isDir (List.mem_of_getElem? there) real rfl)
  have new : (disk dp).dirents.set (k + 2) ⟨0, []⟩
      = ⟨dp, dot⟩ :: ⟨parentOf (disk dp), dotdot⟩ :: (entries (disk dp)).set k ⟨0, []⟩ := by
    conv_lhs => rw [shaped.split]
    rfl
  have few : ((disk dp).dirents.set (k + 2) ⟨0, []⟩).length ≤ MAXDIRENTS := by
    simpa using (sound.formed dp).few
  refine sound.relist linked few ?_ ?_ ?_ ?_
  · rw [new, shaped.front]
    rfl
  · rw [new]
    exact plain_cleared shaped.plain
  · intro j hj
    have cleared := tally_cleared hj there
    rw [new, List.count_singleton]
    simpa using cleared
  · intro j isDirJ
    have hj := sound.real_of_dir isDirJ
    have cleared := tally_cleared hj there
    rw [if_neg, Nat.add_zero] at cleared
    · rw [new]
      exact cleared
    · rintro rfl
      exact notDir isDirJ

/-- An empty directory loses its name. -/
theorem dropDirName (sound : Sound w disk []) (isDirDp : (disk dp).type = .dir)
    (found : lookup (disk dp).dirents name = some (k, ip)) (notDot : name ≠ dot)
    (notDotdot : name ≠ dotdot) (isDir : (disk ip).type = .dir)
    (links : 1 ≤ (disk ip).nlink.toInt) (bare : ∀ de ∈ entries (disk ip), de.inum = 0)
    (other : ip ≠ dp) :
    Sound w (update (update disk ip { disk ip with nlink := (disk ip).nlink - 1 }) dp
      { disk dp with
        dirents := (disk dp).dirents.set k ⟨0, []⟩
        nlink := (disk dp).nlink - 1 }) [] := by
  have shaped := sound.shape dp isDirDp
  obtain ⟨k, rfl, there, real⟩ := shaped.found found notDot notDotdot
  have new : (disk dp).dirents.set (k + 2) ⟨0, []⟩
      = ⟨dp, dot⟩ :: ⟨parentOf (disk dp), dotdot⟩ :: (entries (disk dp)).set k ⟨0, []⟩ := by
    conv_lhs => rw [shaped.split]
    rfl
  refine sound.removeDir isDir real links bare other
    (sound.names_of_entry isDirDp (List.mem_of_getElem? there) real rfl) ?_ ?_ ?_ ?_
  · simpa using (sound.formed dp).few
  · rw [new, shaped.front]
    rfl
  · rw [new]
    exact plain_cleared shaped.plain
  · intro j hj
    rw [new]
    simpa [eq_comm] using tally_cleared hj there

end Removal

end Sound

end LinkCounts
