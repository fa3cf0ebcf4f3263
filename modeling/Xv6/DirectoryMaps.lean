import Xv6.DirectoryBytes
import Xv6.Lib.SlotMaps

/-!
# A directory is a finite map

A directory that `mkdir` makes maps names, cut to `DIRSIZ` bytes, to inode numbers. No two
entries in use have the same name, `dirlink` adds a pair, `sys_unlink` takes one out, and
`isdirempty` may skip the first two entries because "." and ".." stay where `mkdir` put them.
-/

namespace DirectoryMaps
open ByteMemory FileBlocks BlockOwnership BlockCalls FileBytes FileContents DirectoryBytes
open EventRuns Outcomes SlotMaps Function HoleFreeReads Strings
open DirectoryCalls (Dirent Name noInum lookup dot dotdot)

/-- `ip->nlink = k; iupdate(ip);` -/
def relink (sb : Superblock) (ip : Nat) (k : BitVec 16) (s : FileSystem) : FileSystem :=
  iupdate sb ip (s.setIp ip { s.ip ip with nlink := k })

/-- What `create` does for a new directory, up to its own entries; the device numbers stay 0. -/
def makeDir (sb : Superblock) (parent : Nat) (s : FileSystem) :
    Except Fault (Option Nat × FileSystem) :=
  let (dp, s) := ialloc sb T_DIR s
  if dp = 0 then .ok (none, s)
  else do
    let s ← ilock sb dp s
    let s := relink sb dp 1 s
    let (r, s) ← dirlink sb dp (literal dot) (BitVec.ofNat 32 dp) s
    if r < 0 then pure (none, s)
    else do
      let (r, s) ← dirlink sb dp (literal dotdot) (BitVec.ofNat 32 parent) s
      pure (if r < 0 then none else some dp, s)

/-- Calls on one directory, and others that leave it alone. -/
inductive Op
  | dirlink (name : Nat → Byte) (inum : BitVec 32)
  | unlink (busy : Bool) (name : Nat → Byte)
  | dirlookup (name : Nat → Byte)
  | relink (k : BitVec 16)
  | other (c : Call)

def dirStep (sb : Superblock) (dp : Nat) (s : FileSystem) : Op → Except Fault FileSystem
  | .dirlink name inum => do
    let (_, s) ← dirlink sb dp name inum s
    pure s
  | .unlink busy name => do
    let (_, s) ← unlinkEntry sb dp busy name s
    pure s
  | .dirlookup name => do
    let (_, s) ← dirlookup sb dp ((List.range DirectoryCalls.DIRSIZ).map name) s
    pure s
  | .relink k => .ok (relink sb dp k s)
  | .other c => step sb s c

/-- A number that `de.inum` can hold and that is not the one of a free entry. -/
def Linkable (inum : Nat) : Prop := 1 ≤ inum ∧ inum ≤ 65535

def Allowed (dp : Nat) : Op → Prop
  | .dirlink _ inum => Linkable inum.toNat
  | .other c => Spares dp c
  | _ => True

/-- The inode number under a name. -/
def mapOf (sb : Superblock) (s : FileSystem) (dp : Nat) (name : Name) : Option Nat :=
  (lookup (entries sb s dp) name).map fun x => x.2.val

/-- No entry is free, and there is no room for a further one. -/
def CannotGrow (sb : Superblock) (s : FileSystem) (dp : Nat) : Prop :=
  (∀ de ∈ entries sb s dp, de.inum ≠ noInum) ∧ Stuck sb s dp

/-- The name field of an entry, as a pointer. -/
def field (sb : Superblock) (s : FileSystem) (dp k i : Nat) : Byte :=
  (bytesAt sb s dp k).getD (2 + i) 0

/-- An entry in use. -/
def used (de : Entry) : Bool := decide (de.inum ≠ noInum)

structure DirMap (sb : Superblock) (s : FileSystem) (dp : Nat) : Prop where
  dir : IsDir sb s dp
  distinct : Distinct used Dirent.name (entries sb s dp)
  first : ∃ de, (entries sb s dp)[0]? = some de ∧ used de = true ∧ de.name = dot
  second : ∃ de, (entries sb s dp)[1]? = some de ∧ used de = true ∧ de.name = dotdot

variable {sb : Superblock} {s t : FileSystem} {dp : Nat}

theorem lookup_find (l : List Entry) (name : Name) :
    (lookup l name).map (fun x => x.2.val) =
      (find used Dirent.name l name).map fun de => de.inum.val := by
  induction l with
  | nil => rfl
  | cons de l ih =>
    unfold lookup
    rw [find_cons]
    by_cases here : de.inum ≠ 0 ∧ de.name = name
    · rw [if_pos here, if_pos ⟨decide_eq_true here.1, here.2⟩]
      rfl
    · rw [if_neg here, if_neg fun h => here ⟨of_decide_eq_true h.1, h.2⟩, ← ih, Option.map_map]
      rfl

theorem lookup_none_iff (l : List Entry) (name : Name) :
    lookup l name = none ↔ find used Dirent.name l name = none := by
  have same := lookup_find l name
  constructor
  · intro none_
    rw [none_] at same
    exact Option.map_eq_none_iff.mp same.symm
  · intro none_
    rw [none_] at same
    exact Option.map_eq_none_iff.mp same

/-- The place that `dirlink` takes is the first free one. -/
theorem put_eq_add (de : Entry) (l : List Entry) :
    SlotTables.put (l.findIdx fun x => x.inum = noInum) de l = add used de l := by
  have free : (fun x : Entry => decide (x.inum = noInum)) = fun x => !used x := by
    funext x
    simp [used]
  rw [add, ← free]

/-- A number that fits into `de.inum`. -/
theorem linkable_mod {inum : BitVec 32} (linkable : Linkable inum.toNat) :
    inum.toNat % 65536 = inum.toNat := Nat.mod_eq_of_lt (by have := linkable.2; omega)

/-- The entry that `dirlink` writes. -/
def linked (inum : BitVec 32) (name : Name) : Entry :=
  ⟨⟨inum.toNat % 65536, Nat.mod_lt _ (by decide)⟩, name⟩

theorem linked_used {inum : BitVec 32} (linkable : Linkable inum.toNat) (name : Name) :
    used (linked inum name) = true := by
  refine decide_eq_true fun zero => ?_
  have zero : inum.toNat % 65536 = 0 := congrArg Fin.val zero
  have some_ := linkable.1
  have fits := linkable_mod linkable
  omega

theorem DirMap.dirlink_map (d : DirMap sb s dp) (name : Nat → Byte) {inum : BitVec 32}
    (linkable : Linkable inum.toNat) :
    Yields (dirlink sb dp name inum s) fun r => DirMap sb r.2 dp ∧
      (r.1 = -1 ↔ mapOf sb s dp (nameAt name) ≠ none ∨ CannotGrow sb s dp) ∧
      (r.1 = -1 ∧ mapOf sb r.2 dp = mapOf sb s dp ∨
        r.1 = 0 ∧ mapOf sb r.2 dp =
          update (mapOf sb s dp) (nameAt name) (some inum.toNat)) := by
  obtain ⟨r, ok, dir, failed, result⟩ := d.dir.dirlink_entries name inum
  have present : mapOf sb s dp (nameAt name) ≠ none ↔
      lookup (entries sb s dp) (nameAt name) ≠ none := by
    rw [mapOf, Ne, Option.map_eq_none_iff]
  rcases result with ⟨short, same⟩ | ⟨done, list⟩
  · refine ⟨r, ok, ⟨dir, ?_, ?_, ?_⟩, ?_, .inl ⟨short, ?_⟩⟩
    · exact same ▸ d.distinct
    · exact same ▸ d.first
    · exact same ▸ d.second
    · rw [present]
      exact failed
    · funext k
      rw [mapOf, mapOf, same]
  · have absent : lookup (entries sb s dp) (nameAt name) = none := by
      by_contra some_
      rw [failed.mpr (.inl some_)] at done
      cases done
    have live := linked_used linkable (nameAt name)
    replace list : entries sb r.2 dp = add used (linked inum (nameAt name)) (entries sb s dp) :=
      list.trans (put_eq_add _ _)
    have new : find used Dirent.name (entries sb s dp) (linked inum (nameAt name)).name = none :=
      (lookup_none_iff _ _).mp absent
    refine ⟨r, ok, ⟨dir, ?_, ?_, ?_⟩, ?_, .inr ⟨done, ?_⟩⟩
    · rw [list]
      exact d.distinct.add new
    · obtain ⟨first, there, live_, named⟩ := d.first
      exact ⟨first, by rw [list]; exact add_getElem? there live_, live_, named⟩
    · obtain ⟨second, there, live_, named⟩ := d.second
      exact ⟨second, by rw [list]; exact add_getElem? there live_, live_, named⟩
    · rw [present]
      exact failed
    · funext k
      rw [mapOf, list, lookup_find, find_add live new]
      by_cases same : k = nameAt name
      · rw [same, update_self]
        refine (congrArg _ (if_pos rfl)).trans ?_
        exact congrArg some (linkable_mod linkable)
      · rw [update_of_ne same, mapOf, lookup_find]
        exact congrArg _ (if_neg same)

theorem DirMap.unlink_map (d : DirMap sb s dp) (busy : Bool) (name : Nat → Byte) :
    Yields (unlinkEntry sb dp busy name s) fun r => DirMap sb r.2 dp ∧
      (r.1 = some (-1) ∧ r.2 = s ∧ (nameAt name = dot ∨ nameAt name = dotdot ∨
          mapOf sb s dp (nameAt name) = none ∨ busy = true) ∨
        r.1 = some 0 ∧ mapOf sb r.2 dp = update (mapOf sb s dp) (nameAt name) none) := by
  obtain ⟨r, ok, dir, ⟨short, same, why⟩ | ⟨done, plain, plain', k, i, found, list⟩⟩ :=
    d.dir.unlinkEntry_entries busy name
  · refine ⟨r, ok, same ▸ d, .inl ⟨short, same, ?_⟩⟩
    rwa [mapOf, Option.map_eq_none_iff]
  · obtain ⟨there, real⟩ := LinkCounts.lookup_some found
    have free : used ⟨noInum, []⟩ = false := rfl
    have live : used (⟨i, nameAt name⟩ : Entry) = true := decide_eq_true real
    -- neither of the first two entries has the name
    have keeps {j : Nat} {de : Entry} (here : (entries sb s dp)[j]? = some de)
        (other : de.name ≠ nameAt name) : (entries sb r.2 dp)[j]? = some de := by
      rw [list, List.getElem?_set_ne]
      · exact here
      · rintro rfl
        rw [there] at here
        exact other (Option.some.inj here ▸ rfl)
    refine ⟨r, ok, ⟨dir, ?_, ?_, ?_⟩, .inr ⟨done, ?_⟩⟩
    · rw [list]
      exact d.distinct.clear free k
    · obtain ⟨first, here, live_, named⟩ := d.first
      exact ⟨first, keeps here (named ▸ plain.symm), live_, named⟩
    · obtain ⟨second, here, live_, named⟩ := d.second
      exact ⟨second, keeps here (named ▸ plain'.symm), live_, named⟩
    · funext k
      rw [mapOf, list, lookup_find, find_clear d.distinct there live free]
      by_cases same : k = nameAt name
      · rw [if_pos same, same, update_self]
        rfl
      · rw [if_neg same, update_of_ne same, mapOf, lookup_find]

theorem DirMap.dirlookup_map (d : DirMap sb s dp) (name : Nat → Byte) :
    Yields (dirlookup sb dp ((List.range DirectoryCalls.DIRSIZ).map name) s) fun r =>
      r.2 = s ∧ r.1.map Prod.fst = mapOf sb s dp (nameAt name) := by
  rw [d.dir.dirlookup_eq name]
  exact yields_ok ⟨rfl, by rw [Option.map_map]; rfl⟩

/-- `isdirempty` leaves out two entries by their place, and these are "." and "..". -/
theorem DirMap.isdirempty_iff (d : DirMap sb s dp) :
    Yields (isdirempty sb dp s) fun r => r.2 = s ∧
      (r.1 = true ↔ ∀ de ∈ entries sb s dp, used de = true → de.name = dot ∨ de.name = dotdot) := by
  rw [d.dir.isdirempty_eq]
  refine yields_ok ⟨rfl, ?_⟩
  obtain ⟨first, here, live, named⟩ := d.first
  obtain ⟨second, here', live', named'⟩ := d.second
  obtain ⟨rest, list⟩ : ∃ rest, entries sb s dp = first :: second :: rest := by
    match h : entries sb s dp with
    | [] => rw [h] at here; cases here
    | [a] => rw [h] at here'; cases here'
    | a :: b :: rest =>
      rw [h] at here here'
      exact ⟨rest, by rw [Option.some.inj here, Option.some.inj here']⟩
  have distinct := d.distinct
  rw [list] at distinct ⊢
  obtain ⟨apart, distinct⟩ := List.pairwise_cons.mp distinct
  obtain ⟨apart', -⟩ := List.pairwise_cons.mp distinct
  simp only [List.drop_succ_cons, List.drop_zero, List.all_eq_true, decide_eq_true_eq]
  constructor
  · intro empty de member live
    rcases List.mem_cons.mp member with rfl | member
    · exact .inl named
    rcases List.mem_cons.mp member with rfl | member
    · exact .inr named'
    · exact absurd (empty de member) (of_decide_eq_true live)
  · intro only de member
    by_contra real
    have live_ : used de = true := decide_eq_true real
    have member' := List.mem_cons_of_mem second member
    rcases only de (List.mem_cons_of_mem first member') live_ with one | two
    · exact apart de member' live live_ (named.trans one.symm)
    · exact apart' de member live' live_ (named'.trans two.symm)

/-- Names that `namecmp` cannot tell apart stand in one entry. -/
theorem DirMap.no_duplicates (d : DirMap sb s dp) {j k : Nat} (low : j < (entries sb s dp).length)
    (low' : k < (entries sb s dp).length) (live : ushort (bytesAt sb s dp j) ≠ 0)
    (live' : ushort (bytesAt sb s dp k) ≠ 0)
    (same : namecmp (field sb s dp j) (field sb s dp k) = 0) : j = k := by
  have entry {i : Nat} (low : i < (entries sb s dp).length) :
      (entries sb s dp)[i] = decode (bytesAt sb s dp i) := by
    have drop := drop_entries low
    rw [List.drop_eq_getElem_cons low] at drop
    exact (List.cons.inj drop).1
  have real {i : Nat} (low : i < (entries sb s dp).length)
      (live : ushort (bytesAt sb s dp i) ≠ 0) : used (entries sb s dp)[i] = true := by
    rw [entry low]
    exact decide_eq_true (mt (free_iff _).mp live)
  have names : (entries sb s dp)[j].name = (entries sb s dp)[k].name := by
    rw [entry low, entry low']
    exact (Strings.strncmp_eq_zero _ _ _).mp same
  have apart := List.pairwise_iff_getElem.mp d.distinct
  rcases Nat.lt_trichotomy j k with less | equal | less
  · exact absurd names (apart j k low low' less (real low live) (real low' live'))
  · exact equal
  · exact absurd names.symm (apart k j low' low less (real low' live') (real low live))

theorem ip_relink (k : BitVec 16) (i : Nat) : (relink sb dp k s).ip i =
    if i = dp then { s.ip dp with nlink := k } else s.ip i := by
  rw [relink, ip_iupdate, ip_setIp]

theorem named_relink (k : BitVec 16) (x : Nat × Slot) :
    named sb (relink sb dp k s) x = named sb s x := by
  refine named_congr (fun i => ?_) (fun i => ?_) (fun i j _ _ => ?_) x
  · rw [ip_relink]
    split
    next same => rw [same]
    next => rfl
  · rw [ip_relink]
    split
    next same => rw [same]
    next => rfl
  · rfl

theorem relink_consistent (h : Consistent sb s) (alloc : Allocated sb s dp) (k : BitVec 16) :
    Consistent sb (relink sb dp k s) := by
  have names (x : Nat × Slot) :
      named sb (s.setIp dp { s.ip dp with nlink := k }) x = named sb s x :=
    (named_iupdate x).symm.trans (named_relink k x)
  have types (i : Nat) : ((s.setIp dp { s.ip dp with nlink := k }).ip i).type = (s.ip i).type ∧
      ((s.setIp dp { s.ip dp with nlink := k }).ip i).size = (s.ip i).size := by
    rw [ip_setIp]
    split
    next same => rw [same]; exact ⟨rfl, rfl⟩
    next => exact ⟨rfl, rfl⟩
  have allocs (i : Nat) : Allocated sb (s.setIp dp { s.ip dp with nlink := k }) i ↔
      Allocated sb s i := by
    rw [Allocated, Allocated, (types i).1]
  refine h.update ⟨h.owned.partition.congr names fun _ _ => Iff.rfl, h.owned.reserved,
    h.owned.boot⟩ rfl (fun i other => setIp_inode other) ((allocs dp).mpr alloc) fun i live => ?_
  rw [(types i).2]
  exact (h.covered i ((allocs i).mp live)).congr fun slot => names (i, slot)

theorem relink_content (k : BitVec 16) : content sb (relink sb dp k s) dp = content sb s dp := by
  rw [content, content, ip_relink, if_pos rfl]
  refine List.map_congr_left fun j _ => ?_
  unfold byteAt
  split
  · rw [named_relink]
    rfl
  · rfl

theorem relink_isDir (d : IsDir sb s dp) (k : BitVec 16) : IsDir sb (relink sb dp k s) dp where
  consistent := relink_consistent d.consistent d.alloc k
  alloc := by
    rw [Allocated, ip_relink, if_pos rfl]
    exact d.alloc
  type := by
    rw [ip_relink, if_pos rfl]
    exact d.type
  whole := by
    rw [ip_relink, if_pos rfl]
    exact d.whole

/-- A state in which the entries are the same. -/
theorem DirMap.congr (d : DirMap sb s dp) (dir : IsDir sb t dp)
    (same : content sb t dp = content sb s dp) : DirMap sb t dp := by
  have list : entries sb t dp = entries sb s dp := by rw [entries, same, entries]
  exact ⟨dir, list ▸ d.distinct, list ▸ d.first, list ▸ d.second⟩

theorem DirMap.other (d : DirMap sb s dp) {c : Call} (spares : Spares dp c)
    (ok : step sb s c = .ok t) : DirMap sb t dp := by
  have same := step_same d.dir.consistent d.dir.alloc spares ok
  refine d.congr ⟨step_keeps d.dir.consistent ok, same.alloc.mpr d.dir.alloc, ?_, ?_⟩ same.content
  · rw [same.ip]
    exact d.dir.type
  · rw [same.ip]
    exact d.dir.whole

theorem dirStep_keeps (d : DirMap sb s dp) {op : Op} (allowed : Allowed dp op)
    (ok : dirStep sb dp s op = .ok t) : DirMap sb t dp := by
  cases op with
  | dirlink name inum =>
    obtain ⟨r, link, ok⟩ := bind_eq_ok.mp ok
    obtain rfl := pure_eq_ok.mp ok
    exact ((d.dirlink_map name allowed).of_ok link).1
  | unlink busy name =>
    obtain ⟨r, unlink, ok⟩ := bind_eq_ok.mp ok
    obtain rfl := pure_eq_ok.mp ok
    exact ((d.unlink_map busy name).of_ok unlink).1
  | dirlookup name =>
    obtain ⟨r, look, ok⟩ := bind_eq_ok.mp ok
    obtain rfl := pure_eq_ok.mp ok
    exact ((d.dirlookup_map name).of_ok look).1 ▸ d
  | relink k =>
    obtain rfl := Except.ok.inj ok
    exact d.congr (relink_isDir d.dir k) (relink_content k)
  | other c => exact d.other allowed ok

theorem run_keeps (d : DirMap sb s dp) {ops : List Op} (allowed : ∀ op ∈ ops, Allowed dp op)
    (ok : run (dirStep sb dp) s ops = .ok t) : DirMap sb t dp := by
  induction ops generalizing s with
  | nil =>
    obtain rfl := Except.ok.inj ok
    exact d
  | cons op ops ih =>
    obtain ⟨u, first, rest⟩ := run_cons_ok.mp ok
    have kept := dirStep_keeps d (allowed op List.mem_cons_self) first
    exact ih kept (fun o member => allowed o (List.mem_cons_of_mem op member)) rest

/-- The inode that `ialloc` takes, locked. -/
theorem ialloc_isDir (h : Consistent sb s) (some_ : (ialloc sb T_DIR s).1 ≠ 0)
    (locked : ilock sb (ialloc sb T_DIR s).1 (ialloc sb T_DIR s).2 = .ok t) :
    IsDir sb t (ialloc sb T_DIR s).1 ∧ entries sb t (ialloc sb T_DIR s).1 = [] := by
  have consistent := ialloc_consistent h T_DIR
  obtain ⟨consistent', alloc, -, -⟩ := ilock_ok consistent locked
  obtain ⟨copies, frame⟩ := ilock_frame locked
  have blank : (ialloc sb T_DIR s).2.dinode (ialloc sb T_DIR s).1 =
      ⟨T_DIR, 0, 0, 0, 0, fun _ => 0⟩ := by
    unfold ialloc at some_ ⊢
    simp only at some_ ⊢
    split at some_
    · exact absurd rfl some_
    · exact update_self ..
  have ip : t.ip (ialloc sb T_DIR s).1 = ⟨T_DIR, 0, 0, 0, 0, fun _ => 0⟩ := by
    rw [consistent'.ip_eq, frame]
    exact blank
  refine ⟨⟨consistent', alloc, by rw [ip], by rw [ip]; exact Nat.dvd_zero _⟩, ?_⟩
  refine List.eq_nil_of_length_eq_zero ?_
  rw [entries, entriesOf_length, content_length, ip]
  rfl

theorem relink_entries (k : BitVec 16) : entries sb (relink sb dp k s) dp = entries sb s dp := by
  rw [entries, relink_content, entries]

/-- An inode number as the `uint` that `dirlink` is given. -/
theorem small {inum : Nat} (linkable : Linkable inum) :
    Linkable (BitVec.ofNat 32 inum).toNat := by
  have same : (BitVec.ofNat 32 inum).toNat = inum := by
    rw [BitVec.toNat_ofNat]
    exact Nat.mod_eq_of_lt (by have := linkable.2; omega)
  rwa [same]

/-- The two entries that an empty directory gets first. -/
theorem dots_map {u : FileSystem} {r r' : Int} {parent : Nat} (dir : IsDir sb s dp)
    (empty : entries sb s dp = []) (linkable : Linkable dp) (linkable' : Linkable parent)
    (one : dirlink sb dp (literal dot) (BitVec.ofNat 32 dp) s = .ok (r, t)) (fine : ¬ r < 0)
    (two : dirlink sb dp (literal dotdot) (BitVec.ofNat 32 parent) t = .ok (r', u))
    (fine' : ¬ r' < 0) : DirMap sb u dp := by
  obtain ⟨dir', -, result⟩ := (dir.dirlink_entries _ _).of_ok one
  obtain ⟨dir'', -, result'⟩ := (dir'.dirlink_entries _ _).of_ok two
  have live := linked_used (small linkable) dot
  have live' := linked_used (small linkable') dotdot
  have first : entries sb t dp = [linked (BitVec.ofNat 32 dp) dot] := by
    rcases result with ⟨failed, -⟩ | ⟨-, list⟩
    · simp only at failed
      omega
    · refine (list.trans (put_eq_add _ _)).trans ?_
      rw [empty, add_nil]
      rfl
  have both : entries sb u dp =
      [linked (BitVec.ofNat 32 dp) dot, linked (BitVec.ofNat 32 parent) dotdot] := by
    rcases result' with ⟨failed, -⟩ | ⟨-, list⟩
    · simp only at failed
      omega
    · refine (list.trans (put_eq_add _ _)).trans ?_
      simp only [first]
      rw [add_cons_live live, add_nil]
      rfl
  refine ⟨dir'', ?_, ⟨_, by rw [both]; rfl, live, rfl⟩, ⟨_, by rw [both]; rfl, live', rfl⟩⟩
  rw [both]
  refine List.pairwise_pair.mpr fun _ _ same => ?_
  cases same

theorem makeDir_map {parent : Nat} (h : Consistent sb s)
    (made : makeDir sb parent s = .ok (some dp, t)) (linkable : Linkable dp)
    (linkable' : Linkable parent) : DirMap sb t dp := by
  unfold makeDir at made
  simp only at made
  split at made
  · cases made
  next some_ =>
    obtain ⟨u, locked, made⟩ := bind_eq_ok.mp made
    obtain ⟨dir, empty⟩ := ialloc_isDir h some_ locked
    have empty' := (relink_entries (s := u) 1).trans empty
    obtain ⟨⟨r, v⟩, one, made⟩ := bind_eq_ok.mp made
    simp only at made
    split at made
    · cases made
    next fine =>
      obtain ⟨⟨r', w⟩, two, made⟩ := bind_eq_ok.mp made
      obtain ⟨named, rfl⟩ := Prod.mk.inj (Except.ok.inj made)
      split at named
      · cases named
      next fine' =>
        obtain rfl := Option.some.inj named
        exact dots_map (relink_isDir dir 1) empty' linkable linkable' one fine two fine'

/-- After any calls on a directory that `mkdir` made, it is a finite map: no name occurs
twice, and lookups, links, removals and the test for emptiness are those of the map. -/
theorem finite_map {parent : Nat} (h : Consistent sb s)
    (made : makeDir sb parent s = .ok (some dp, t)) (linkable : Linkable dp)
    (linkable' : Linkable parent) {ops : List Op} (allowed : ∀ op ∈ ops, Allowed dp op)
    {u : FileSystem} (ok : run (dirStep sb dp) t ops = .ok u) :
    (∀ j k, j < (entries sb u dp).length → k < (entries sb u dp).length →
      ushort (bytesAt sb u dp j) ≠ 0 → ushort (bytesAt sb u dp k) ≠ 0 →
      namecmp (field sb u dp j) (field sb u dp k) = 0 → j = k) ∧
    (∀ name, Yields (dirlookup sb dp ((List.range DirectoryCalls.DIRSIZ).map name) u) fun r =>
      r.2 = u ∧ r.1.map Prod.fst = mapOf sb u dp (nameAt name)) ∧
    (∀ name inum, Linkable inum.toNat → Yields (dirlink sb dp name inum u) fun r =>
      (r.1 = -1 ↔ mapOf sb u dp (nameAt name) ≠ none ∨ CannotGrow sb u dp) ∧
      (r.1 = -1 ∧ mapOf sb r.2 dp = mapOf sb u dp ∨
        r.1 = 0 ∧ mapOf sb r.2 dp =
          update (mapOf sb u dp) (nameAt name) (some inum.toNat))) ∧
    (∀ busy name, Yields (unlinkEntry sb dp busy name u) fun r =>
      r.1 = some (-1) ∧ r.2 = u ∧ (nameAt name = dot ∨ nameAt name = dotdot ∨
          mapOf sb u dp (nameAt name) = none ∨ busy = true) ∨
        r.1 = some 0 ∧ mapOf sb r.2 dp = update (mapOf sb u dp) (nameAt name) none) ∧
    Yields (isdirempty sb dp u) fun r => r.2 = u ∧
      (r.1 = true ↔ ∀ de ∈ entries sb u dp, used de = true → de.name = dot ∨ de.name = dotdot) := by
  have d := run_keeps (makeDir_map h made linkable linkable') allowed ok
  refine ⟨?_, d.dirlookup_map, ?_, ?_, d.isdirempty_iff⟩
  · exact fun j k low low' live live' same => d.no_duplicates low low' live live' same
  · intro name inum range
    exact (d.dirlink_map name range).mono fun r all => all.2
  · exact fun busy name => (d.unlink_map busy name).mono fun r all => all.2

/-- A directory of a fresh disk, with one name linked, taken out and linked again. -/
theorem finite_map_fresh : Yields (makeDir smallDisk 1 fresh) fun r => r.1 = some 1 ∧
    Yields (run (dirStep smallDisk 1) r.2 [.dirlink (literal [120]) 7,
      .unlink false (literal [120]), .dirlink (literal [120]) 9]) fun u =>
        ∀ name, Yields (dirlookup smallDisk 1 ((List.range 14).map name) u) fun r =>
          r.2 = u ∧ r.1.map Prod.fst = mapOf smallDisk u 1 (nameAt name) := by
  have runs : Yields (makeDir smallDisk 1 fresh) fun r => r.1 = some 1 ∧
      Yields (run (dirStep smallDisk 1) r.2 [.dirlink (literal [120]) 7,
        .unlink false (literal [120]), .dirlink (literal [120]) 9]) fun _ => True := by
    decide +kernel
  obtain ⟨⟨dp, t⟩, made, rfl, u, ok, -⟩ := runs
  refine ⟨_, made, rfl, u, ok, ?_⟩
  have all := finite_map fresh_consistent made (by unfold Linkable; decide)
    (by unfold Linkable; decide) (by simp [Allowed, Linkable]) ok
  exact all.2.1

end DirectoryMaps
