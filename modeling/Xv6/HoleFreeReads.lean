import Xv6.BlockCalls

/-!
# Reading allocates nothing

In every state each block of a file below its size has an address. So `bmap`
only looks addresses up when `readi` calls it, and `fileread` and `dirlookup`,
which read outside a transaction or without `iupdate`, log nothing and leave
the disk as it is.
-/

namespace HoleFreeReads
open FileBlocks BlockOwnership BlockCalls EventRuns Outcomes ByteMemory

variable {sb : Superblock} {s t : FileSystem} {inum : Nat}

/-- A fault or the state as before. -/
def Unchanged {A : Type} (s : FileSystem) (x : Except Fault (A × FileSystem)) : Prop :=
  ∀ r, x = .ok r → r.2 = s

theorem lookupLoop_unchanged {dp : Nat} {name : List Byte} (alloc : Allocated sb s dp)
    (covered : Covers sb s dp (s.ip dp).size.toNat) (rounds : Nat) (off : BitVec 32) :
    Unchanged s (lookupLoop sb dp name rounds off s) := by
  induction rounds generalizing off with
  | zero =>
    intro r ok
    obtain rfl := Except.ok.inj ok
    rfl
  | succ rounds ih =>
    intro r ok
    unfold lookupLoop at ok
    split at ok
    next inside =>
      obtain ⟨⟨n, de, u⟩, read, later⟩ := bind_eq_ok.mp ok
      have same : u = s := (readi_present alloc covered).of_ok read
      subst same
      simp only at later
      split at later
      · exact nomatch later
      · split at later
        · obtain rfl := pure_eq_ok.mp later
          rfl
        · exact ih _ r later
    next =>
      obtain rfl := Except.ok.inj ok
      rfl

theorem dirlookup_unchanged {dp : Nat} {name : List Byte} (h : Consistent sb s)
    (alloc : Allocated sb s dp) : Unchanged s (dirlookup sb dp name s) := by
  intro r ok
  unfold dirlookup at ok
  split at ok
  · exact nomatch ok
  · exact lookupLoop_unchanged alloc (h.covered dp alloc) _ _ r ok

/-- `ilock` changes nothing but the in-memory copies. -/
theorem ilock_frame (ok : ilock sb inum s = .ok t) : ∃ copies, t = { s with inode := copies } := by
  unfold ilock at ok
  split at ok
  · exact nomatch ok
  · split at ok
    · obtain rfl := Except.ok.inj ok
      exact ⟨_, rfl⟩
    · split at ok
      · exact nomatch ok
      · obtain rfl := Except.ok.inj ok
        exact ⟨_, rfl⟩

/-- `fileread` may read the inode into memory, and that is all. -/
theorem fileread_frame {fails : Nat → Bool} {off n : BitVec 32} (h : Consistent sb s)
    {r : Int × List Byte × BitVec 32 × FileSystem} (ok : fileread sb inum fails off n s = .ok r) :
    ∃ copies, r.2.2.2 = { s with inode := copies } := by
  obtain ⟨t, locked, later⟩ := bind_eq_ok.mp ok
  obtain ⟨⟨m, bytes, u⟩, read, last⟩ := bind_eq_ok.mp later
  obtain ⟨consistent, alloc, -, -⟩ := ilock_ok h locked
  have same : u = t := (readi_present alloc (consistent.covered inum alloc)).of_ok read
  obtain rfl := pure_eq_ok.mp last
  obtain ⟨copies, frame⟩ := ilock_frame locked
  exact ⟨copies, same.trans frame⟩

/-- In every state the blocks of a file up to its size have addresses, so no
reader allocates or logs anything. -/
theorem no_holes (sb : Superblock) (s : FileSystem) (h : Consistent sb s) (cs : List Call)
    (t : FileSystem) (ok : run (step sb) s cs = .ok t) :
    (∀ i k, Allocated sb t i → k < ((t.ip i).size.toNat + BSIZE - 1) / BSIZE →
      ∃ addr, addr ≠ 0 ∧ bmap sb i k t = .ok (addr, t)) ∧
    (∀ i fails off n, Allocated sb t i →
      ∃ r bytes, readi sb i fails off n t = .ok (r, bytes, t)) ∧
    (∀ i fails off n r, fileread sb i fails off n t = .ok r → r.2.2.2.logged = t.logged) ∧
    (∀ dp name r, Allocated sb t dp → dirlookup sb dp name t = .ok r → r.2 = t) := by
  have sound := run_consistent h ok
  refine ⟨?_, ?_, ?_, ?_⟩
  · intro i k alloc below
    have inside : k * BSIZE < (t.ip i).size.toNat := by
      unfold BSIZE at *
      omega
    obtain ⟨slot, place, some_⟩ := sound.covered i alloc k inside
    exact ⟨_, some_, bmap_present alloc place some_⟩
  · intro i fails off n alloc
    have present : Yields (readi sb i fails off n t) fun r => r.2.2 = t :=
      readi_present alloc (sound.covered i alloc)
    obtain ⟨⟨r, bytes, u⟩, read, same⟩ := present
    replace same : u = t := same
    rw [same] at read
    exact ⟨r, bytes, read⟩
  · intro i fails off n r ok
    obtain ⟨copies, frame⟩ := fileread_frame sound ok
    rw [frame]
  · intro dp name r alloc ok
    exact dirlookup_unchanged sound alloc r ok

theorem no_holes_fresh :
    ∃ t, run (step smallDisk) fresh [.ialloc 2, .writei 1 (fun _ => 7) (fun _ => none) 0 3] = .ok t ∧
      ∃ addr, addr ≠ 0 ∧ bmap smallDisk 1 0 t = .ok (addr, t) := by
  have all := no_holes smallDisk fresh fresh_consistent
    [.ialloc 2, .writei 1 (fun _ => 7) (fun _ => none) 0 3] _ rfl
  exact ⟨_, rfl, all.1 1 0 (by unfold Allocated; decide) (by decide)⟩

end HoleFreeReads
