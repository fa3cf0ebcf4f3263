import Xv6.FileContents
import Xv6.UserCopies

/-!
# Writes whose source ends too early

`writei` with a source in user memory. `either_copyin` copies into the cached block
page by page, and when it comes to a page it may not read, the bytes before that page
are in the buffer already; `writei` does not count them and goes on to return.
-/

namespace PartialWrites
open ByteMemory FileBlocks BlockOwnership BlockCalls FileBytes FileContents UserCopies
open EventRuns Outcomes

/-- The byte of the user at `srcva + j`. -/
def userSrc (tables : Tables) (pagetable : Nat) (m : Memory) (srcva j : Nat) : Byte :=
  m (target tables pagetable (srcva + j))

/-- When the copy of the chunk at `tot` fails, how many of its bytes it has copied. -/
def userFails (tables : Tables) (pagetable srcva n off tot : Nat) : Option Nat :=
  let len := chunk n tot (off + tot)
  let got := reach tables pagetable (srcva + tot) len
  if got = len then none else some got

/-- `writei` with `user_src` set. -/
def writeiUser (sb : Superblock) (inum : Nat) (tables : Tables) (pagetable : Nat) (m : Memory)
    (srcva : Nat) (off n : BitVec 32) (s : FileSystem) : Except Fault (Int × FileSystem) :=
  writei sb inum (userSrc tables pagetable m srcva)
    (userFails tables pagetable srcva n.toNat off.toNat) off n s

/-- The call came to its end because the copy at `w` failed: the block was there. -/
def CopyFailed (sb : Superblock) (inum : Nat) (off n : BitVec 32) (t : FileSystem) (w : Nat) :
    Prop :=
  w < n.toNat ∧ Mapped sb t inum (off.toNat + w)

/-- The file has its old bytes outside of the `w` bytes from `off` on. -/
def KeepsRest (sb : Superblock) (inum : Nat) (off : BitVec 32) (s t : FileSystem) (w : Nat) :
    Prop :=
  ∀ k < (s.ip inum).size.toNat, (k < off.toNat ∨ off.toNat + w ≤ k) →
    byteAt sb t inum k = byteAt sb s inum k

/-- The bytes of the user that can be read end at a block boundary of the file, or those
after the last boundary fall behind its end or are what the file has there. -/
def Harmless (sb : Superblock) (inum : Nat) (tables : Tables) (pagetable : Nat) (m : Memory)
    (srcva : Nat) (off n : BitVec 32) (s : FileSystem) : Prop :=
  let last := off.toNat + reach tables pagetable srcva n.toNat
  ∀ k < (s.ip inum).size.toNat, off.toNat ≤ k → last - last % BSIZE ≤ k → k < last →
    userSrc tables pagetable m srcva (k - off.toNat) = byteAt sb s inum k

variable {sb : Superblock} {s : FileSystem} {inum : Nat} {tables : Tables}
  {pagetable srcva : Nat} {m : Memory} {off n : BitVec 32}

/-- `either_copyin` of a chunk does to the buffer what the loop of `writei` says. -/
theorem copyin_chunk (m buf : Memory) (srcva n off tot : Nat) :
    let r := copyin tables pagetable m buf ((off + tot) % BSIZE) (srcva + tot)
      (chunk n tot (off + tot))
    match userFails tables pagetable srcva n off tot with
    | none => r = (0, copied (userSrc tables pagetable m srcva) tot (chunk n tot (off + tot))
        (off + tot) buf)
    | some k => r = (-1, copied (userSrc tables pagetable m srcva) tot
        (min k (chunk n tot (off + tot))) (off + tot) buf) := by
  simp only [userFails, copyin_reach, copied, userSrc]
  have most := reach_le tables pagetable (srcva + tot) (chunk n tot (off + tot))
  split
  next all =>
    split at all
    next same => simp only [same, if_true, Nat.add_assoc]
    next => cases all
  next k cut =>
    split at cut
    next => cases cut
    next other =>
      obtain rfl := Option.some.inj cut
      simp only [if_neg other, min_eq_left most, Nat.add_assoc]

theorem passed_of_copied {n off c : Nat}
    (whole : userFails tables pagetable srcva n off c = none) {j : Nat} (low : c ≤ j)
    (high : j < c + chunk n c (off + c)) : Passes tables pagetable (srcva + j) := by
  simp only [userFails] at whole
  split at whole
  next all =>
    obtain ⟨i, rfl⟩ := Nat.exists_eq_add_of_le low
    have reached : i < reach tables pagetable (srcva + c) (chunk n c (off + c)) := by omega
    rw [← Nat.add_assoc]
    exact (lt_reach.mp reached).2 i le_rfl
  next => cases whole

/-- A copy that fails at a chunk got as far as the source can be read. -/
theorem extra_eq {n off w k : Nat} (before : ∀ j < w, Passes tables pagetable (srcva + j))
    (short : w < n) (failed : userFails tables pagetable srcva n off w = some k) :
    k < chunk n w (off + w) ∧ w + k = reach tables pagetable srcva n := by
  simp only [userFails] at failed
  split at failed
  next => cases failed
  next other =>
    obtain rfl := Option.some.inj failed
    have most := reach_le tables pagetable (srcva + w) (chunk n w (off + w))
    have bound : chunk n w (off + w) ≤ n - w := Nat.min_le_left _ _
    set k := reach tables pagetable (srcva + w) (chunk n w (off + w)) with hk
    have all : ∀ j < w + k, Passes tables pagetable (srcva + j) := by
      intro j below
      by_cases first : j < w
      · exact before j first
      · obtain ⟨i, rfl⟩ := Nat.exists_eq_add_of_le (Nat.le_of_not_lt first)
        rw [← Nat.add_assoc]
        exact (lt_reach.mp (show i < k by omega)).2 i le_rfl
    have stop : ¬ Passes tables pagetable (srcva + (w + k)) := by
      intro pass
      have further : k < reach tables pagetable (srcva + w) (chunk n w (off + w)) := by
        refine lt_reach.mpr ⟨by omega, fun j le => ?_⟩
        rw [Nat.add_assoc]
        rcases Nat.lt_or_eq_of_le le with below | rfl
        · exact all (w + j) (by omega)
        · exact pass
      omega
    refine ⟨by omega, eq_of_forall_lt_iff fun j => ?_⟩
    rw [lt_reach]
    constructor
    · exact fun below => ⟨by omega, fun i le => all i (by omega)⟩
    · rintro ⟨-, pass⟩
      by_contra far
      exact stop (pass (w + k) (by omega))

/-- A call that is not rejected counts the bytes of the chunks it wrote. If the copy of the
next chunk failed, the rest of the file is as before exactly when the bytes that this
copy left in the buffer do no harm. -/
theorem copy_failure_keeps_iff (h : Consistent sb s) (alloc : Allocated sb s inum)
    (accepted : ¬ Rejected s inum off n) :
    Yields (writeiUser sb inum tables pagetable m srcva off n s) fun r => ∃ w : Nat,
      r.1 = w ∧ (CopyFailed sb inum off n r.2 w →
        ((KeepsRest sb inum off s r.2 w ∧
            (r.2.ip inum).size.toNat = max (s.ip inum).size.toNat (off.toNat + w)) ↔
          Harmless sb inum tables pagetable m srcva off n s)) := by
  obtain ⟨r, ok, w, extra, run⟩ := writei_run h alloc (userSrc tables pagetable m srcva)
    (userFails tables pagetable srcva n.toNat off.toNat) accepted
  refine ⟨r, ok, w, run.result, ?_⟩
  rintro ⟨short, mapped⟩
  have stopped : ∃ k, userFails tables pagetable srcva n.toNat off.toNat w = some k ∧
      extra = min k (chunk n.toNat w (off.toNat + w)) := by
    rcases run.stop with ⟨all, -⟩ | ⟨-, -, -, unmapped⟩ | ⟨-, -, stopped⟩
    · omega
    · exact absurd mapped unmapped
    · exact stopped
  obtain ⟨k, failed, cut⟩ := stopped
  have before := run.passed (fun j => Passes tables pagetable (srcva + j))
    fun c whole j low high => passed_of_copied whole low high
  obtain ⟨less, last⟩ := extra_eq before short failed
  rw [min_eq_left less.le] at cut
  subst cut
  -- the failed chunk begins at `off` or at the boundary before the last byte
  have begins : ∀ p, off.toNat ≤ p → p < off.toNat + w + extra →
      (off.toNat + w ≤ p ↔ off.toNat + (w + extra) - (off.toNat + (w + extra)) % BSIZE ≤ p) := by
    intro p low high
    have aligned := run.aligned
    unfold chunk BSIZE at less
    unfold BSIZE at *
    omega
  have old (p : Nat) (below : p < (s.ip inum).size.toNat) : Mapped sb s inum p :=
    .of_covers (h.covered inum alloc) below
  rw [and_iff_left run.size]
  simp only [Harmless, ← last]
  constructor
  · intro keeps p below low from_ high
    have high : p < off.toNat + w + extra := by omega
    rw [← run.new p low high]
    exact keeps p below (.inr ((begins p low high).mpr from_))
  · intro harmless p below away
    by_cases touched : off.toNat ≤ p ∧ p < off.toNat + w + extra
    · obtain ⟨low, high⟩ := touched
      rw [run.new p low high]
      exact harmless p below low ((begins p low high).mp (by omega)) (by omega)
    · exact run.kept inum p (old p below) (by omega)

/-- A process with one page that it can read. -/
def onePage : Tables := fun _ j => if j = 0 then PA2PTE 0x87f00000 ||| PTE_V ||| PTE_U else 0

/-- Three bytes in a file. -/
def shortFile : Except Fault FileSystem :=
  run (step smallDisk) fresh [.ialloc 2, .writei 1 (fun _ => 7) (fun _ => none) 0 3]

theorem copy_failure_keeps_iff_short : Yields shortFile fun s =>
    Yields (writeiUser smallDisk 1 onePage 0x1000 (fun _ => 9) 4096 0 3 s) fun r => ∃ w : Nat,
      r.1 = w ∧ (CopyFailed smallDisk 1 0 3 r.2 w →
        ((KeepsRest smallDisk 1 0 s r.2 w ∧
            (r.2.ip 1).size.toNat = max (s.ip 1).size.toNat ((0 : BitVec 32).toNat + w)) ↔
          Harmless smallDisk 1 onePage 0x1000 (fun _ => 9) 4096 0 3 s)) := by
  have live : Yields shortFile fun s => Allocated smallDisk s 1 ∧ ¬ Rejected s 1 0 3 := by
    unfold Allocated Rejected
    decide +kernel
  obtain ⟨s, ok, alloc, accepted⟩ := live
  exact ⟨s, ok, copy_failure_keeps_iff (run_consistent fresh_consistent ok) alloc accepted⟩

/-- Two of the three bytes lie in the page: the call counts none of them, and the file has
both. -/
theorem uncounted_bytes_written : Yields shortFile fun s =>
    Yields (writeiUser smallDisk 1 onePage 0x1000 (fun _ => 9) 4094 0 3 s) fun r =>
      r.1 = 0 ∧ CopyFailed smallDisk 1 0 3 r.2 0 ∧ ¬ KeepsRest smallDisk 1 0 s r.2 0 := by
  unfold CopyFailed KeepsRest Mapped
  decide +kernel

end PartialWrites
