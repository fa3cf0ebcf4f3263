import Mathlib.Data.List.Dedup
import Mathlib.Data.List.Perm.Subperm
import Xv6.FileBytes
import Xv6.LogFormat

/-!
# What one write logs

`filewrite` cuts a write into transactions and gives `writei` at most `max` bytes in
each, so that the blocks a transaction logs fit what `begin_op` reserves for it: the data
blocks, blocks of the free map, the indirect block and the block of the inode.
-/

namespace TransactionBlocks
open ByteMemory FileBlocks BlockOwnership BlockCalls FileBytes EventRuns Outcomes
open LogFormat (MAXOPBLOCKS)

/-- `max` of `filewrite`. -/
def maxChunk : Nat := ((MAXOPBLOCKS - 1 - 1 - 2) / 2) * BSIZE

/-- One transaction of `filewrite` for an inode, with `n1` bytes for offset `off`: the
result of `writei`, the new offset and the state, whose log starts empty. -/
def transaction (sb : Superblock) (inum : Nat) (src : Nat → Byte) (fails : Nat → Option Nat)
    (off n1 : BitVec 32) (s : FileSystem) : Except Fault (Int × BitVec 32 × FileSystem) := do
  let s ← ilock sb inum { s with logged := [] }
  let (r, s) ← writei sb inum src fails off n1 s
  pure (r, if r > 0 then off + BitVec.ofInt 32 r else off, s)

/-- How many blocks `n` bytes from `off` on lie in. -/
def spanned (off n : Nat) : Nat := if n = 0 then 0 else (off + n - 1) / BSIZE + 1 - off / BSIZE

/-- How many of these begin in those bytes. -/
def begun (off n : Nat) : Nat := (off + n + BSIZE - 1) / BSIZE - (off + BSIZE - 1) / BSIZE

/-- A block that only ends in the bytes is there already. -/
theorem spanned_begun (off : Nat) {n : Nat} (limit : n ≤ maxChunk) :
    spanned off n + begun off n ≤ 7 := by
  unfold maxChunk MAXOPBLOCKS at limit
  unfold spanned begun
  unfold BSIZE at *
  split <;> omega

theorem spanned_chunk (off : Nat) {n tot : Nat} (more : tot < n) :
    1 + spanned (off + chunk n tot off) (n - (tot + chunk n tot off)) ≤ spanned off (n - tot) := by
  unfold spanned
  rw [if_neg (by omega : n - tot ≠ 0)]
  unfold chunk BSIZE
  split <;> omega

theorem begun_chunk {off n tot m : Nat} (more : tot < n) (one : m ≤ 1)
    (there : off % BSIZE ≠ 0 → m = 0) :
    m + begun (off + chunk n tot off) (n - (tot + chunk n tot off)) ≤ begun off (n - tot) := by
  have whole : off + chunk n tot off + (n - (tot + chunk n tot off)) = off + (n - tot) := by
    have short : chunk n tot off ≤ n - tot := Nat.min_le_left _ _
    omega
  have some := chunk_pos more off
  unfold begun
  rw [whole]
  generalize chunk n tot off = c at some ⊢
  by_cases start : off % BSIZE = 0
  · unfold BSIZE at *
    omega
  · have later : (off + BSIZE - 1) / BSIZE ≤ (off + c + BSIZE - 1) / BSIZE :=
      Nat.div_le_div_right (by omega)
    rw [there start]
    omega

theorem begun_pos {off n m : Nat} (more : 0 < n) (one : m ≤ 1)
    (there : off % BSIZE ≠ 0 → m = 0) : m ≤ begun off n := by
  unfold begun
  unfold BSIZE at *
  omega

variable {sb : Superblock} {s t u : FileSystem} {inum : Nat}

/-- Writing `n` bytes at `off` logged `data` blocks, `maps` of the free map and the indirect
block. Each allocation logs one of `maps`; the indirect block itself may need one. -/
structure Logs (inum off n : Nat) (s t : FileSystem) (data maps : List BlockNo) : Prop where
  span : data.length ≤ spanned off n
  allocs : maps.length + missing (indirectOf t inum) ≤ begun off n + missing (indirectOf s inum)
  logged : ∀ c ∈ t.logged, c ∈ s.logged ∨ c ∈ data ∨ c ∈ maps ∨ (c ≠ 0 ∧ c = indirectOf t inum)
  still : indirectOf s inum ≠ 0 → indirectOf t inum = indirectOf s inum

theorem Logs.none (inum off n : Nat) (s : FileSystem) : Logs inum off n s s [] [] :=
  ⟨Nat.zero_le _, by simp, fun c old => .inl old, fun _ => rfl⟩

theorem missing_le (b : BlockNo) : missing b ≤ 1 := by
  unfold missing
  split <;> omega

/-- One call of `bmap` for a block of the bytes. -/
theorem Logs.first {slot : Slot} {r : BlockNo × FileSystem} {off n : Nat}
    (alloc : Allocated sb s inum) (e : Effect sb inum slot s r)
    (there : off % BSIZE ≠ 0 → named sb s (inum, slot) ≠ 0) (more : 0 < n) :
    ∃ maps, Logs inum off n s r.2 [r.1] maps ∧
      maps.length + missing (indirectOf r.2 inum) ≤
        missing (named sb s (inum, slot)) + missing (indirectOf s inum) := by
  obtain ⟨maps, count, logged⟩ := e.logged
  refine ⟨maps, ⟨?_, ?_, ?_, ?_⟩, count⟩
  · unfold spanned
    rw [if_neg (by omega : n ≠ 0)]
    unfold BSIZE
    simp only [List.length_singleton]
    omega
  · have unaligned := begun_pos more (missing_le (named sb s (inum, slot)))
      fun unaligned => if_neg (there unaligned)
    omega
  · simpa only [List.mem_singleton] using logged
  · intro some_
    have named := e.reached.grown.names (inum, .addr indirect) (by rwa [named_eq alloc])
    rwa [named_eq alloc, named_eq (e.reached.grown.allocated.mpr alloc)] at named

/-- A chunk that is written, and then the rest. -/
theorem Logs.chunk {slot : Slot} {b : BlockNo} {data maps maps' : List BlockNo} {n tot off : Nat}
    (more : tot < n) (m : Memory) (there : off % BSIZE ≠ 0 → named sb s (inum, slot) ≠ 0)
    (first : Logs inum off (n - tot) s t [b] maps)
    (count : maps.length + missing (indirectOf t inum) ≤
      missing (named sb s (inum, slot)) + missing (indirectOf s inum))
    (rest : Logs inum (off + chunk n tot off) (n - (tot + chunk n tot off))
      (wrote t b m (b :: t.logged)) u data maps') :
    Logs inum off (n - tot) s u (b :: data) (maps ++ maps') where
  span := by
    have step := spanned_chunk off more
    have tail := rest.span
    rw [List.length_cons]
    omega
  allocs := by
    have step := begun_chunk more (missing_le (named sb s (inum, slot)))
      fun unaligned => if_neg (there unaligned)
    have tail : maps'.length + missing (indirectOf u inum) ≤
      begun (off + FileBlocks.chunk n tot off) (n - (tot + FileBlocks.chunk n tot off)) +
        missing (indirectOf t inum) := rest.allocs
    rw [List.length_append]
    omega
  logged := by
    intro c new
    rcases rest.logged c new with old | data | map | ind
    · rcases List.mem_cons.mp old with rfl | old
      · exact .inr (.inl List.mem_cons_self)
      · rcases first.logged c old with old | data | map | ⟨some_, ind⟩
        · exact .inl old
        · rw [List.mem_singleton.mp data]
          exact .inr (.inl List.mem_cons_self)
        · exact .inr (.inr (.inl (List.mem_append_left _ map)))
        · have same : indirectOf u inum = indirectOf t inum := rest.still (ind ▸ some_)
          exact .inr (.inr (.inr ⟨some_, ind.trans same.symm⟩))
    · exact .inr (.inl (List.mem_cons_of_mem _ data))
    · exact .inr (.inr (.inl (List.mem_append_right _ map)))
    · exact .inr (.inr (.inr ind))
  still := by
    intro some_
    have before := first.still some_
    have later : indirectOf u inum = indirectOf t inum := rest.still (before ▸ some_)
    exact later.trans before

theorem writeLoop_logs (src : Nat → Byte) (fails : Nat → Option Nat) {n : Nat} (rounds : Nat)
    {tot off : Nat} (h : Owned sb s) (alloc : Allocated sb s inum)
    (inside : off + (n - tot) ≤ MAXFILE * BSIZE)
    (there : off % BSIZE ≠ 0 → Mapped sb s inum off) :
    Yields (writeLoop sb inum src fails n rounds tot off s) fun r =>
      ∃ data maps, Logs inum off (n - tot) s r.2.2 data maps := by
  induction rounds generalizing s tot off with
  | zero => exact yields_ok ⟨[], [], .none ..⟩
  | succ rounds ih =>
    unfold writeLoop
    split
    next more =>
      have low : off / BSIZE < MAXFILE := by
        unfold MAXFILE BSIZE at *
        omega
      obtain ⟨slot, place⟩ := blockSlot_some low
      have there : off % BSIZE ≠ 0 → named sb s (inum, slot) ≠ 0 := by
        intro unaligned
        obtain ⟨slot', place', live⟩ := there unaligned
        rw [place] at place'
        exact Option.some.inj place' ▸ live
      apply (bmap_effect h alloc place).bind
      rintro ⟨addr, t⟩ effect
      obtain ⟨maps, first, count⟩ := Logs.first alloc effect there (Nat.sub_pos_of_lt more)
      have grown := effect.reached.grown
      simp only at first grown count ⊢
      split
      next => exact yields_ok ⟨[addr], maps, first⟩
      next some_ =>
        split
        next => exact yields_ok ⟨[addr], maps, first.span, first.allocs, first.logged, first.still⟩
        next =>
          have name := effect.reached.names some_
          have later := grown.trans (grown_wrote grown.owned place some_ name
            (copied src tot (chunk n tot off) off (t.block addr)) (addr :: t.logged))
          have bound : chunk n tot off ≤ n - tot := Nat.min_le_left _ _
          have there' : (off + chunk n tot off) % BSIZE ≠ 0 →
              Mapped sb (wrote t addr (copied src tot (chunk n tot off) off (t.block addr))
                (addr :: t.logged)) inum (off + chunk n tot off) := by
            intro unaligned
            have same : (off + chunk n tot off) / BSIZE = off / BSIZE := by
              have fits : chunk n tot off ≤ BSIZE - off % BSIZE := Nat.min_le_right _ _
              unfold BSIZE at *
              omega
            refine ⟨slot, same ▸ place, ?_⟩
            rw [named_wrote grown.owned place some_ name, name]
            exact some_
          apply (ih later.owned (later.allocated.mpr alloc) (by omega) there').mono
          rintro ⟨tot', off', v⟩ ⟨data, maps', rest⟩
          exact ⟨addr :: data, maps ++ maps', first.chunk more _ there count rest⟩
    next => exact yields_ok ⟨[], [], .none ..⟩

/-- The blocks that `writei` passes to `log_write`, when the call is not rejected. -/
theorem writei_logs (h : Consistent sb s) (alloc : Allocated sb s inum) (src : Nat → Byte)
    (fails : Nat → Option Nat) (off n : BitVec 32) :
    Yields (writei sb inum src fails off n s) fun r => r.2 = s ∨
      ∃ t data maps, Logs inum off.toNat n.toNat s t data maps ∧
        r.2.logged = IBLOCK sb inum :: t.logged := by
  unfold writei
  split
  next => exact yields_ok (.inl rfl)
  next fits =>
    split
    next => exact yields_ok (.inl rfl)
    next small =>
      obtain ⟨inside, nowrap⟩ := not_or.mp fits
      rw [BitVec.lt_def] at inside nowrap
      have sum : (off + n).toNat = off.toNat + n.toNat := by
        rw [BitVec.toNat_add] at nowrap ⊢
        omega
      have there : off.toNat % BSIZE ≠ 0 → Mapped sb s inum off.toNat := by
        intro unaligned
        have before : off.toNat - 1 < (s.ip inum).size.toNat := by
          have nonzero : off.toNat ≠ 0 := fun zero => unaligned (by rw [zero]; rfl)
          omega
        have covered := Mapped.of_covers (h.covered inum alloc) before
        have same : (off.toNat - 1) / BSIZE = off.toNat / BSIZE := by
          unfold BSIZE at *
          omega
        unfold Mapped at covered ⊢
        rwa [same] at covered
      apply (writeLoop_logs src fails n.toNat h.owned alloc (by omega) there).bind
      rintro ⟨tot, off', t⟩ ⟨data, maps, logs⟩
      refine yields_ok (.inr ⟨t, data, maps, logs, ?_⟩)
      simp only [iupdate, FileSystem.setIp]
      split <;> rfl

/-- Counted without repetitions they are at most `MAXOPBLOCKS`. -/
theorem Logs.distinct {off n : Nat} {data maps : List BlockNo} {inode : BlockNo}
    (logs : Logs inum off n s t data maps) (fresh : s.logged = []) (limit : n ≤ maxChunk) :
    (inode :: t.logged).dedup.length ≤ MAXOPBLOCKS := by
  have listed : inode :: t.logged ⊆
      inode :: (data ++ maps ++ if indirectOf t inum = 0 then [] else [indirectOf t inum]) := by
    refine List.cons_subset_cons inode fun c new => ?_
    simp only [List.mem_append]
    rcases logs.logged c new with old | data | map | ⟨some_, rfl⟩
    · rw [fresh] at old
      exact nomatch old
    · exact .inl (.inl data)
    · exact .inl (.inr map)
    · rw [if_neg some_]
      exact .inr (List.mem_singleton_self _)
  have few := (List.subperm_of_subset (List.nodup_dedup _)
    fun c member => listed (List.dedup_subset _ member)).length_le
  have span := logs.span
  have allocs := logs.allocs
  have total := spanned_begun off limit
  have one := missing_le (indirectOf s inum)
  unfold missing at allocs one
  simp only [List.length_cons, List.length_append] at few
  unfold MAXOPBLOCKS
  split at few
  next none =>
    simp only [if_pos none, List.length_nil] at allocs few
    omega
  next some_ =>
    simp only [if_neg some_, List.length_singleton] at allocs few
    omega

/-- An inode in use can be locked. -/
theorem ilock_allocated (h : Consistent sb s) (alloc : Allocated sb s inum) :
    ∃ t, ilock sb inum s = .ok t := by
  unfold ilock
  rw [if_neg (Nat.not_le_of_lt alloc.1)]
  cases here : s.inode inum with
  | some ip => exact ⟨s, rfl⟩
  | none =>
    have typed : (s.dinode inum).type ≠ 0 := by
      have typed := alloc.2
      rwa [h.ip_eq] at typed
    exact ⟨_, if_neg typed⟩

/-- A transaction of `filewrite` logs at most `MAXOPBLOCKS` blocks. -/
theorem transaction_fits (h : Consistent sb s) (alloc : Allocated sb s inum) (src : Nat → Byte)
    (fails : Nat → Option Nat) (off n1 : BitVec 32) (limit : n1.toNat ≤ maxChunk) :
    Yields (transaction sb inum src fails off n1 s) fun r =>
      r.2.2.logged.dedup.length ≤ MAXOPBLOCKS := by
  have empty : Consistent sb { s with logged := [] } :=
    ⟨⟨h.owned.partition, h.owned.reserved, h.owned.boot⟩, h.covered, h.synced⟩
  obtain ⟨t, locked⟩ := ilock_allocated empty alloc
  obtain ⟨consistent, live, -, fresh⟩ := ilock_ok empty locked
  unfold transaction
  rw [locked]
  apply (writei_logs consistent live src fails off n1).bind
  rintro ⟨r, v⟩ logs
  refine yields_ok ?_
  rcases logs with same | ⟨w, data, maps, logs, passed⟩
  · simp only at same ⊢
    rw [same, fresh]
    exact Nat.zero_le _
  · simp only at passed ⊢
    rw [passed]
    exact logs.distinct fresh limit

theorem transaction_fits_full : ∃ t, run (step smallDisk) fresh [.ialloc 2] = .ok t ∧
    Yields (transaction smallDisk 1 (fun _ => 7) (fun _ => none) 0 3072 t) fun r =>
      r.2.2.logged.dedup.length ≤ MAXOPBLOCKS := by
  have ok : run (step smallDisk) fresh [.ialloc 2] = .ok (ialloc smallDisk 2 fresh).2 := rfl
  have live : Allocated smallDisk (ialloc smallDisk 2 fresh).2 1 := by
    unfold Allocated
    decide
  exact ⟨_, ok, transaction_fits (run_consistent fresh_consistent ok) live _ _ 0 3072 (by decide)⟩

end TransactionBlocks
