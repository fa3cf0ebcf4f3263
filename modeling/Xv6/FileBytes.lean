import Xv6.BlockCalls

/-!
# The bytes of a file

What `bmap` and the loops of `readi` and `writei` do to the bytes of the files.
`bmap` may give blocks to a file but changes no byte that has a block; a round of
`writei` changes the bytes it was asked to, in its own file only.
-/

namespace FileBytes
open ByteMemory FileBlocks BlockOwnership BlockCalls Function Outcomes

variable {sb : Superblock} {s t : FileSystem} {inum i k bn : Nat} {b : BlockNo}

/-- The byte at offset `k` of a file. -/
def byteAt (sb : Superblock) (s : FileSystem) (i k : Nat) : Byte :=
  match blockSlot (k / BSIZE) with
  | some slot => s.block (named sb s (i, slot)) (k % BSIZE)
  | none => 0

/-- The block of the byte has an address. -/
def Mapped (sb : Superblock) (s : FileSystem) (i k : Nat) : Prop :=
  ∃ slot, blockSlot (k / BSIZE) = some slot ∧ named sb s (i, slot) ≠ 0

theorem Mapped.of_covers {n : Nat} (h : Covers sb s i n) (below : k < n) : Mapped sb s i k := by
  refine h (k / BSIZE) ?_
  unfold BSIZE
  omega

/-- The block of a file that a place is for. -/
def slotBlock : Slot → Nat
  | .addr k => k.val
  | .entry j => NDIRECT + j.val

theorem slotBlock_eq {slot : Slot} (place : blockSlot bn = some slot) : slotBlock slot = bn := by
  unfold blockSlot at place
  split at place
  · obtain rfl := Option.some.inj place
    rfl
  next far =>
    split at place
    · obtain rfl := Option.some.inj place
      simp only [slotBlock, NDIRECT] at far ⊢
      omega
    · exact nomatch place

theorem addrOrAlloc_cases (h : Owned sb s) (inum : Nat) (k : Fin 13) :
    (addrOrAlloc sb inum k s = ((s.ip inum).addrs k, s) ∧ (s.ip inum).addrs k ≠ 0) ∨
    ((s.ip inum).addrs k = 0 ∧ addrOrAlloc sb inum k s = (0, s) ∧ balloc sb s = (0, s)) ∨
    ∃ b, (s.ip inum).addrs k = 0 ∧
      addrOrAlloc sb inum k s = (b, (taken sb s b).setAddr inum k b) ∧
      DataBlock sb b ∧ ¬ Bitmaps.Marked s.bits b.toNat := by
  unfold addrOrAlloc
  by_cases zero : (s.ip inum).addrs k = 0
  · rcases balloc_cases h with full | ⟨b, got, data, clear⟩
    · exact .inr (.inl ⟨zero, by simp only [if_pos zero, full, if_true], full⟩)
    · refine .inr (.inr ⟨b, zero, ?_, data, clear⟩)
      simp only [if_pos zero, got, if_neg (h.nonzero data)]
  · exact .inl ⟨by simp only [if_neg zero], zero⟩

theorem entryOrAlloc_cases (h : Owned sb s) (ind : BlockNo) (j : Fin 256) :
    (entryOrAlloc sb ind j s = (s.entry ind j, s) ∧ s.entry ind j ≠ 0) ∨
    (s.entry ind j = 0 ∧ entryOrAlloc sb ind j s = (0, s) ∧ balloc sb s = (0, s)) ∨
    ∃ b, s.entry ind j = 0 ∧
      entryOrAlloc sb ind j s = (b, wrote (taken sb s b) ind
        (storeWord ((taken sb s b).block ind) (4 * j.val) b) (ind :: (taken sb s b).logged)) ∧
      DataBlock sb b ∧ ¬ Bitmaps.Marked s.bits b.toNat := by
  unfold entryOrAlloc
  by_cases zero : s.entry ind j = 0
  · rcases balloc_cases h with full | ⟨b, got, data, clear⟩
    · exact .inr (.inl ⟨zero, by simp only [if_pos zero, full, if_true], full⟩)
    · refine .inr (.inr ⟨b, zero, ?_, data, clear⟩)
      simp only [if_pos zero, got, if_neg (h.nonzero data)]
      rfl
  · exact .inl ⟨by simp only [if_neg zero], zero⟩

/-- The indirect block of an inode. -/
def indirectOf (s : FileSystem) (inum : Nat) : BlockNo := (s.ip inum).addrs indirect

/-- One if the block number is null. -/
def missing (b : BlockNo) : Nat := if b = 0 then 1 else 0

/-- What `bmap` does besides what `Reached` says: it keeps the data of every block that
a file has, and it fails only when no block is free, for a block without an address. What
it logs is the block it returns, a block of the free map for each block it allocates, and
the indirect block. -/
structure Effect (sb : Superblock) (inum : Nat) (slot : Slot) (s : FileSystem)
    (r : BlockNo × FileSystem) : Prop where
  reached : Reached sb inum slot s r
  kept : ∀ x : Nat × Slot, x.2 ≠ .addr indirect → named sb s x ≠ 0 →
    r.2.block (named sb s x) = s.block (named sb s x)
  full : r.1 = 0 → (balloc sb r.2).1 = 0 ∧ named sb r.2 (inum, slot) = 0
  logged : ∃ maps : List BlockNo,
    maps.length + missing (indirectOf r.2 inum) ≤
      missing (named sb s (inum, slot)) + missing (indirectOf s inum) ∧
    ∀ c ∈ r.2.logged, c ∈ s.logged ∨ c = r.1 ∨ c ∈ maps ∨
      (c ≠ 0 ∧ c = indirectOf r.2 inum)

/-- The data of a block that was named survives an allocation. -/
theorem taken_kept (h : Owned sb s) (data : DataBlock sb b)
    (clear : ¬ Bitmaps.Marked s.bits b.toNat) (x : Nat × Slot) :
    (taken sb s b).block (named sb s x) = s.block (named sb s x) :=
  update_of_ne (h.unnamed data clear x) ..

theorem addrOrAlloc_effect (h : Owned sb s) (alloc : Allocated sb s inum) {a : Fin 13}
    (direct : a ≠ indirect) : Effect sb inum (.addr a) s (addrOrAlloc sb inum a s) := by
  have name : named sb s (inum, .addr a) = (s.ip inum).addrs a := named_eq alloc
  refine ⟨addrOrAlloc_reached h alloc a, ?_, ?_, ?_⟩
  all_goals
    rcases addrOrAlloc_cases h inum a with ⟨eq, some_⟩ | ⟨zero, eq, full⟩ |
      ⟨b, zero, eq, data, clear⟩
    all_goals rw [eq]
  · exact fun _ _ _ => rfl
  · exact fun _ _ _ => rfl
  · exact fun x _ _ => taken_kept h data clear x
  · exact fun none => absurd none some_
  · exact fun _ => ⟨by rw [full], name.trans zero⟩
  · exact fun none => absurd none (h.nonzero data)
  · exact ⟨[], by simp, fun c old => .inl old⟩
  · exact ⟨[], by simp, fun c old => .inl old⟩
  · have same : indirectOf ((taken sb s b).setAddr inum a b) inum = indirectOf s inum := by
      simp only [indirectOf, ip_setAddr, if_true]
      exact update_of_ne direct.symm ..
    refine ⟨[BBLOCK sb b], ?_, ?_⟩
    · rw [same, name, zero]
      simp [missing]
    · intro c new
      simp only [FileSystem.setAddr, FileSystem.setIp, taken, List.mem_cons] at new
      rcases new with rfl | rfl | old
      · exact .inr (.inl rfl)
      · exact .inr (.inr (.inl (by simp)))
      · exact .inl old

/-- The first half of `bmap` for a block that the indirect block names. -/
theorem indirect_effect (h : Owned sb s) (inum : Nat) :
    let r := addrOrAlloc sb inum indirect s
    indirectOf r.2 inum = r.1 ∧
    (∀ x, named sb s x ≠ 0 → r.2.block (named sb s x) = s.block (named sb s x)) ∧
    (r.1 = 0 → (balloc sb r.2).1 = 0) ∧
    ∃ maps : List BlockNo, maps.length + missing r.1 ≤ missing (indirectOf s inum) ∧
      ∀ c ∈ r.2.logged, c ∈ s.logged ∨ c = r.1 ∨ c ∈ maps := by
  rcases addrOrAlloc_cases h inum indirect with ⟨eq, some_⟩ | ⟨zero, eq, full⟩ |
    ⟨b, zero, eq, data, clear⟩
  all_goals rw [eq]
  · exact ⟨rfl, fun _ _ => rfl, fun none => absurd none some_, [], by simp [indirectOf],
      fun c old => .inl old⟩
  · exact ⟨zero, fun _ _ => rfl, fun _ => by rw [full], [], by simp [indirectOf, zero],
      fun c old => .inl old⟩
  · refine ⟨by simp [indirectOf, ip_setAddr], fun x _ => taken_kept h data clear x,
      fun none => absurd none (h.nonzero data), [BBLOCK sb b], ?_, ?_⟩
    · have before : missing (indirectOf s inum) = 1 := if_pos zero
      have after : missing b = 0 := if_neg (h.nonzero data)
      simp [before, after]
    · intro c new
      simp only [FileSystem.setAddr, FileSystem.setIp, taken, List.mem_cons] at new
      rcases new with rfl | rfl | old
      · exact .inr (.inl rfl)
      · exact .inr (.inr (by simp))
      · exact .inl old

/-- Its second half. -/
theorem entryOrAlloc_effect (h : Owned sb s) (alloc : Allocated sb s inum)
    (some_ : indirectOf s inum ≠ 0) (j : Fin 256) :
    Effect sb inum (.entry j) s (entryOrAlloc sb (indirectOf s inum) j s) := by
  have name : named sb s (inum, .entry j) = s.entry (indirectOf s inum) j := by
    rw [named_eq alloc]
    exact if_neg some_
  have level : named sb s (inum, .addr indirect) = indirectOf s inum := named_eq alloc
  refine ⟨entryOrAlloc_reached h alloc some_ j, ?_, ?_, ?_⟩
  all_goals
    rcases entryOrAlloc_cases h (indirectOf s inum) j with ⟨eq, there⟩ | ⟨zero, eq, full⟩ |
      ⟨b, zero, eq, data, clear⟩
    all_goals rw [eq]
  · exact fun _ _ _ => rfl
  · exact fun _ _ _ => rfl
  · -- only the indirect block is written, and no place but one names it
    intro x other live
    have apart : named sb s x ≠ indirectOf s inum := by
      intro same
      have equal := h.partition.alone x (inum, .addr indirect) (same.trans level.symm) live
      exact other (congrArg Prod.snd equal)
    simp only [wrote, update_of_ne apart]
    exact taken_kept h data clear x
  · exact fun none => absurd none there
  · exact fun _ => ⟨by rw [full], name.trans zero⟩
  · exact fun none => absurd none (h.nonzero data)
  · exact ⟨[], by simp, fun c old => .inl old⟩
  · exact ⟨[], by simp, fun c old => .inl old⟩
  · refine ⟨[BBLOCK sb b], ?_, ?_⟩
    · have same : indirectOf (wrote (taken sb s b) (indirectOf s inum)
          (storeWord ((taken sb s b).block (indirectOf s inum)) (4 * j.val) b)
          (indirectOf s inum :: (taken sb s b).logged)) inum = indirectOf s inum := rfl
      rw [same, name, zero]
      simp [missing]
    · intro c new
      simp only [wrote, taken, List.mem_cons] at new
      rcases new with rfl | rfl | rfl | old
      · exact .inr (.inr (.inr ⟨some_, rfl⟩))
      · exact .inr (.inl rfl)
      · exact .inr (.inr (.inl (by simp)))
      · exact .inl old

theorem missing_mono {x : Nat × Slot} (names : named sb s x ≠ 0 → named sb t x = named sb s x) :
    missing (named sb t x) ≤ missing (named sb s x) := by
  unfold missing
  by_cases zero : named sb s x = 0
  · simp only [zero, if_true]
    split <;> omega
  · rw [names zero]

theorem bmap_effect (h : Owned sb s) (alloc : Allocated sb s inum) {slot : Slot}
    (place : blockSlot bn = some slot) : Yields (bmap sb inum bn s) (Effect sb inum slot s) := by
  have reached := bmap_reached h alloc place
  unfold blockSlot at place
  unfold bmap at reached ⊢
  split
  next direct =>
    rw [dif_pos direct] at place
    obtain rfl := Option.some.inj place
    refine yields_ok (addrOrAlloc_effect h alloc ?_)
    intro same
    have := congrArg Fin.val same
    simp [indirect] at this
    omega
  next far =>
    rw [dif_neg far] at place reached
    split
    next inside =>
      rw [dif_pos inside] at place reached
      obtain rfl := Option.some.inj place
      obtain ⟨its, kept, full, maps, count, logged⟩ := indirect_effect h inum
      have level := addrOrAlloc_reached h alloc indirect
      simp only at reached ⊢
      split
      next none =>
        rw [if_pos none] at reached
        have empty : named sb (addrOrAlloc sb inum indirect s).2
            (inum, .entry ⟨bn - NDIRECT, inside⟩) = 0 := by
          rw [named_eq (level.grown.allocated.mpr alloc)]
          exact if_pos (its.trans none)
        refine yields_ok ⟨reached.of_ok rfl, fun x _ live => kept x live,
          fun _ => ⟨full none, empty⟩, maps, ?_, ?_⟩
        · rw [its]
          omega
        · intro c new
          rcases logged c new with old | same | map
          · exact .inl old
          · exact .inr (.inl (same.trans none))
          · exact .inr (.inr (.inl map))
      next some_ =>
        rw [if_neg some_] at reached
        have alloc' := level.grown.allocated.mpr alloc
        have second := entryOrAlloc_effect level.grown.owned alloc' (its ▸ some_)
          ⟨bn - NDIRECT, inside⟩
        rw [its] at second
        obtain ⟨maps', count', logged'⟩ := second.logged
        have named_level : named sb (addrOrAlloc sb inum indirect s).2 (inum, .addr indirect) =
            (addrOrAlloc sb inum indirect s).1 := level.names some_
        have still := second.reached.grown.names _ (named_level ▸ some_)
        rw [named_level, named_eq (second.reached.grown.allocated.mpr alloc')] at still
        refine yields_ok ⟨reached.of_ok rfl, ?_, second.full, maps ++ maps', ?_, ?_⟩
        · intro x other live
          have same := level.grown.names x live
          rw [← kept x live, ← same]
          exact second.kept x other (same ▸ live)
        · have entry := missing_mono (level.grown.names (inum, .entry ⟨bn - NDIRECT, inside⟩))
          rw [its] at count'
          rw [List.length_append]
          omega
        · intro c new
          rcases logged' c new with old | same | map | ind
          · rcases logged c old with old | same | map
            · exact .inl old
            · refine .inr (.inr (.inr ⟨same ▸ some_, same.trans still.symm⟩))
            · exact .inr (.inr (.inl (List.mem_append_left _ map)))
          · exact .inr (.inl same)
          · exact .inr (.inr (.inl (List.mem_append_right _ map)))
          · exact .inr (.inr (.inr ind))
    next past =>
      rw [dif_neg past] at place
      cases place

/-- No byte that has a block is changed or loses its block. -/
def Kept (sb : Superblock) (s t : FileSystem) : Prop :=
  ∀ i k, Mapped sb s i k → Mapped sb t i k ∧ byteAt sb t i k = byteAt sb s i k

theorem Effect.kept_bytes {slot : Slot} {r : BlockNo × FileSystem}
    (e : Effect sb inum slot s r) : Kept sb s r.2 := by
  rintro i k ⟨place', here, live⟩
  have same := e.reached.grown.names (i, place') live
  refine ⟨⟨place', here, same ▸ live⟩, ?_⟩
  simp only [byteAt, here, same]
  rw [e.kept (i, place') (blockSlot_ne_indirect here) live]

theorem Mapped.grown (m : Mapped sb s i k) (grown : Grown sb inum s t) : Mapped sb t i k := by
  obtain ⟨slot, place, live⟩ := m
  exact ⟨slot, place, by rw [grown.names _ live]; exact live⟩

/-- A chunk of the source goes into the block of offset `off`. -/
theorem byteAt_copied (tot : Nat) (h : Owned sb s) {slot : Slot} {off count : Nat}
    (place : blockSlot (off / BSIZE) = some slot) (some_ : b ≠ 0)
    (name : named sb s (inum, slot) = b) (fits : count ≤ BSIZE - off % BSIZE)
    (src : Nat → Byte) (logged : List BlockNo) (m : Mapped sb s i k) :
    byteAt sb (wrote s b (copied src tot count off (s.block b)) logged) i k =
      if i = inum ∧ off ≤ k ∧ k < off + count then src (tot + (k - off)) else byteAt sb s i k := by
  obtain ⟨slot', place', live⟩ := m
  simp only [byteAt, place', named_wrote h place some_ name]
  by_cases same : named sb s (i, slot') = b
  · have equal := h.partition.alone (i, slot') (inum, slot) (same.trans name.symm) live
    obtain ⟨rfl, rfl⟩ := Prod.mk.inj equal
    have number : k / BSIZE = off / BSIZE := (slotBlock_eq place').symm.trans (slotBlock_eq place)
    have inside : (off ≤ k ∧ k < off + count) ↔
        off % BSIZE ≤ k % BSIZE ∧ k % BSIZE < off % BSIZE + count := by
      unfold BSIZE at *
      omega
    simp only [wrote, same, update_self, copied, store, true_and, inside]
    by_cases low : off % BSIZE ≤ k % BSIZE
    · have offset : k % BSIZE - off % BSIZE = k - off := by
        unfold BSIZE at *
        omega
      by_cases high : k % BSIZE < off % BSIZE + count
      · rw [if_pos low, if_pos ⟨low, high⟩, List.getD_eq_getElem _ _ (by simp; omega)]
        simp [offset]
      · rw [if_pos low, if_neg fun h => high h.2, List.getD_eq_default _ _ (by simp; omega)]
    · rw [if_neg low, if_neg fun h => low h.1]
  · have apart : ¬ (i = inum ∧ off ≤ k ∧ k < off + count) := by
      rintro ⟨rfl, low, high⟩
      have number : k / BSIZE = off / BSIZE := by
        unfold BSIZE at *
        omega
      rw [number, place] at place'
      obtain rfl := Option.some.inj place'
      exact same name
    rw [if_neg apart]
    simp only [wrote, update_of_ne same]

/-- The loop came from `tot` of the source, offset `off + tot` of the file, to the
result `r`, with `extra` more bytes in the buffer of a chunk that failed. -/
structure WriteRun (sb : Superblock) (inum : Nat) (src : Nat → Byte) (fails : Nat → Option Nat)
    (n off tot : Nat) (s : FileSystem) (r : Nat × Nat × FileSystem) (extra : Nat) : Prop where
  grown : Grown sb inum s r.2.2
  low : tot ≤ r.1
  high : r.1 ≤ n
  moved : r.2.1 = off + r.1
  covered : Covers sb r.2.2 inum r.2.1
  kept : ∀ i k, Mapped sb s i k → (i ≠ inum ∨ k < off + tot ∨ off + r.1 + extra ≤ k) →
    byteAt sb r.2.2 i k = byteAt sb s i k
  new : ∀ k, off + tot ≤ k → k < off + r.1 + extra → byteAt sb r.2.2 inum k = src (k - off)
  /-- What the copy of a chunk that does not fail says of its bytes holds of all those
  that were written. -/
  passed : ∀ P : Nat → Prop,
    (∀ c, fails c = none → ∀ j, c ≤ j → j < c + chunk n c (off + c) → P j) →
    ∀ j, tot ≤ j → j < r.1 → P j
  aligned : r.1 = tot ∨ r.1 = n ∨ (off + r.1) % BSIZE = 0
  /-- It wrote all, the disk was full, or a copy failed. -/
  stop : (r.1 = n ∧ extra = 0) ∨
    (r.1 < n ∧ extra = 0 ∧ (balloc sb r.2.2).1 = 0 ∧ ¬ Mapped sb r.2.2 inum (off + r.1)) ∨
    (r.1 < n ∧ Mapped sb r.2.2 inum (off + r.1) ∧
      ∃ k, fails r.1 = some k ∧ extra = min k (chunk n r.1 (off + r.1)))

theorem chunk_block {off m : Nat} (fits : m ≤ BSIZE - off % BSIZE) (low : off ≤ k)
    (high : k < off + m) : k / BSIZE = off / BSIZE := by
  unfold BSIZE at *
  omega

theorem copied_bytes (h : Owned sb t) {slot : Slot} {off count : Nat} (tot : Nat)
    (place : blockSlot ((off + tot) / BSIZE) = some slot) (some_ : b ≠ 0)
    (name : named sb t (inum, slot) = b) (fits : count ≤ BSIZE - (off + tot) % BSIZE)
    (src : Nat → Byte) (logged : List BlockNo) (kept : Kept sb s t) :
    let u := wrote t b (copied src tot count (off + tot) (t.block b)) logged
    (∀ i k, Mapped sb s i k → (i ≠ inum ∨ k < off + tot ∨ off + tot + count ≤ k) →
      byteAt sb u i k = byteAt sb s i k) ∧
    ∀ k, off + tot ≤ k → k < off + tot + count → byteAt sb u inum k = src (k - off) := by
  constructor
  · intro i k m away
    obtain ⟨m', same⟩ := kept i k m
    refine (byteAt_copied tot h place some_ name fits src logged m').trans ?_
    rw [if_neg, same]
    rintro ⟨rfl, low, high⟩
    rcases away with other | before | after
    · exact other rfl
    · omega
    · omega
  · intro k low high
    have m : Mapped sb t inum k :=
      ⟨slot, by rw [chunk_block fits low high]; exact place, name ▸ some_⟩
    refine (byteAt_copied tot h place some_ name fits src logged m).trans ?_
    rw [if_pos ⟨rfl, low, high⟩]
    exact congrArg src (by omega)

/-- The loop ends before the next chunk. -/
theorem WriteRun.halts (grown : Grown sb inum s t) (kept : Kept sb s t)
    (covered : Covers sb t inum (off + tot)) (bound : tot ≤ n)
    (stop : tot = n ∨
      tot < n ∧ (balloc sb t).1 = 0 ∧ ¬ Mapped sb t inum (off + tot)) :
    WriteRun sb inum src fails n off tot s (tot, off + tot, t) 0 := by
  refine ⟨grown, le_rfl, bound, rfl, covered, fun i k m _ => (kept i k m).2, ?_, ?_, .inl rfl, ?_⟩
  · intro k low high
    simp only at high
    omega
  · intro P _ j low high
    simp only at high
    omega
  · rcases stop with all | ⟨more, full, empty⟩
    · exact .inl ⟨all, rfl⟩
    · exact .inr (.inl ⟨more, rfl, full, empty⟩)

/-- The copy of a chunk fails, with `extra` bytes of it in the buffer. -/
theorem WriteRun.breaks (later : Grown sb inum s t) (covered : Covers sb t inum (off + tot))
    (more : tot < n) (mapped : Mapped sb t inum (off + tot)) (stopped : fails tot = some c)
    (few : extra = min c (chunk n tot (off + tot)))
    (old : ∀ i k, Mapped sb s i k → (i ≠ inum ∨ k < off + tot ∨ off + tot + extra ≤ k) →
      byteAt sb t i k = byteAt sb s i k)
    (new : ∀ k, off + tot ≤ k → k < off + tot + extra → byteAt sb t inum k = src (k - off)) :
    WriteRun sb inum src fails n off tot s (tot, off + tot, t) extra := by
  refine ⟨later, le_rfl, more.le, rfl, covered, old, new, ?_, .inl rfl,
    .inr (.inr ⟨more, mapped, c, stopped, few⟩)⟩
  intro P _ j low high
  simp only at high
  omega

/-- A chunk is copied, and the loop runs on from its end. -/
theorem WriteRun.goesOn {r : Nat × Nat × FileSystem} (later : Grown sb inum s t) (more : tot < n)
    (whole : fails tot = none)
    (old : ∀ i k, Mapped sb s i k →
      (i ≠ inum ∨ k < off + tot ∨ off + tot + chunk n tot (off + tot) ≤ k) →
      byteAt sb t i k = byteAt sb s i k)
    (new : ∀ k, off + tot ≤ k → k < off + tot + chunk n tot (off + tot) →
      Mapped sb t inum k ∧ byteAt sb t inum k = src (k - off))
    (run : WriteRun sb inum src fails n off (tot + chunk n tot (off + tot)) t r extra) :
    WriteRun sb inum src fails n off tot s r extra := by
  have progress := chunk_pos more (off + tot)
  have low := run.low
  refine ⟨later.trans run.grown, by omega, run.high, run.moved, run.covered, ?_, ?_, ?_, ?_,
    run.stop⟩
  · intro i k m away
    rw [run.kept i k (m.grown later) (by omega)]
    exact old i k m (by omega)
  · intro k start high
    by_cases first : k < off + tot + chunk n tot (off + tot)
    · obtain ⟨m, same⟩ := new k start first
      rw [run.kept inum k m (.inr (.inl (by omega)))]
      exact same
    · exact run.new k (by omega) high
  · intro P chunks j start high
    by_cases first : j < tot + chunk n tot (off + tot)
    · exact chunks tot whole j start first
    · exact run.passed P chunks j (by omega) high
  · rcases run.aligned with same | all | aligned
    · -- the chunk ended with its block or with the request
      refine .inr ?_
      rw [same]
      unfold chunk BSIZE
      omega
    · exact .inr (.inl all)
    · exact .inr (.inr aligned)

theorem writeLoop_run (src : Nat → Byte) (fails : Nat → Option Nat) {n off : Nat}
    (inside : off + n ≤ MAXFILE * BSIZE) (rounds tot : Nat) (s : FileSystem) (h : Owned sb s)
    (alloc : Allocated sb s inum) (covered : Covers sb s inum (off + tot)) (bound : tot ≤ n)
    (enough : n - tot ≤ rounds) :
    Yields (writeLoop sb inum src fails n rounds tot (off + tot) s) fun r =>
      ∃ extra, WriteRun sb inum src fails n off tot s r extra := by
  have refl (t : FileSystem) : Kept sb t t := fun _ _ m => ⟨m, rfl⟩
  induction rounds generalizing tot s with
  | zero =>
    exact yields_ok ⟨0, .halts (Grown.refl h) (refl s) covered bound (.inl (by omega))⟩
  | succ rounds ih =>
    unfold writeLoop
    split
    next more =>
      have low : (off + tot) / BSIZE < MAXFILE := by
        unfold MAXFILE BSIZE at *
        omega
      obtain ⟨slot, place⟩ := blockSlot_some low
      apply (bmap_effect h alloc place).bind
      rintro ⟨addr, t⟩ effect
      have grown := effect.reached.grown
      have kept := effect.kept_bytes
      simp only at grown kept ⊢
      split
      next none =>
        obtain ⟨full, empty⟩ := effect.full none
        have unmapped : ¬ Mapped sb t inum (off + tot) := by
          rintro ⟨slot', place', live⟩
          rw [place] at place'
          exact live (Option.some.inj place' ▸ empty)
        exact yields_ok ⟨0, .halts grown kept (covered.grown grown) bound
          (.inr ⟨more, full, unmapped⟩)⟩
      next some_ =>
        have name := effect.reached.names some_
        have fits : chunk n tot (off + tot) ≤ BSIZE - (off + tot) % BSIZE := Nat.min_le_right _ _
        have here (k : Nat) (low : off + tot ≤ k)
            (high : k < off + tot + chunk n tot (off + tot)) : Mapped sb t inum k :=
          ⟨slot, by rw [chunk_block fits low high]; exact place, name ▸ some_⟩
        have progress := chunk_pos more (off + tot)
        split
        next c stopped =>
          have write := grown_wrote grown.owned place some_ name (copied src tot
            (min c (chunk n tot (off + tot))) (off + tot) (t.block addr)) t.logged
          obtain ⟨old, new⟩ := copied_bytes grown.owned tot place some_ name
            ((Nat.min_le_right c _).trans fits) src t.logged kept
          exact yields_ok ⟨_, .breaks (grown.trans write)
            (covered.grown (grown.trans write)) more
            ((here (off + tot) le_rfl (by omega)).grown write) stopped rfl old new⟩
        next whole =>
          have write := grown_wrote grown.owned place some_ name
            (copied src tot (chunk n tot (off + tot)) (off + tot) (t.block addr)) (addr :: t.logged)
          obtain ⟨old, new⟩ := copied_bytes grown.owned tot place some_ name fits src
            (addr :: t.logged) kept
          have later := grown.trans write
          have still := (write.names (inum, slot) (name ▸ some_)).trans name
          have further := ((covered.grown grown).grown write).chunk fits place (still ▸ some_)
          rw [Nat.add_assoc] at further
          have short : chunk n tot (off + tot) ≤ n - tot := Nat.min_le_left _ _
          have next := ih (tot + chunk n tot (off + tot)) _ later.owned
            (later.allocated.mpr alloc) further (by omega) (by omega)
          rw [← Nat.add_assoc] at next
          apply next.mono
          rintro r ⟨extra, run⟩
          exact ⟨extra, .goesOn later more whole old
            (fun k low high => ⟨(here k low high).grown write, new k low high⟩) run⟩
    next done =>
      exact yields_ok ⟨0, .halts (Grown.refl h) (refl s) covered bound (.inl (by omega))⟩

theorem load_block {slot : Slot} {off m : Nat} (place : blockSlot (off / BSIZE) = some slot)
    (fits : m ≤ BSIZE - off % BSIZE) :
    load (s.block (named sb s (inum, slot))) (off % BSIZE) m =
      (List.range m).map fun j => byteAt sb s inum (off + j) := by
  refine List.map_congr_left fun j below => ?_
  have below := List.mem_range.mp below
  have block : (off + j) / BSIZE = off / BSIZE := chunk_block fits (by omega) (by omega)
  have offset : (off + j) % BSIZE = off % BSIZE + j := by
    unfold BSIZE at *
    omega
  simp only [byteAt, block, place, offset]

/-- Over the bytes that have blocks the loop reads them all. -/
theorem readLoop_bytes {n off : Nat} (alloc : Allocated sb s inum)
    (covered : Covers sb s inum (off + n)) (rounds tot : Nat) (out : List Byte) (bound : tot ≤ n)
    (enough : n - tot ≤ rounds) :
    readLoop sb inum (fun _ => false) n rounds tot (off + tot) out s =
      .ok (n, out ++ (List.range (n - tot)).map fun j => byteAt sb s inum (off + tot + j), s) := by
  induction rounds generalizing tot out with
  | zero =>
    have all : tot = n := by omega
    simp [readLoop, all]
  | succ rounds ih =>
    unfold readLoop
    split
    next more =>
      have below : (off + tot) / BSIZE * BSIZE < off + n := by
        unfold BSIZE
        omega
      obtain ⟨slot, place, live⟩ := covered _ below
      have fits : chunk n tot (off + tot) ≤ BSIZE - (off + tot) % BSIZE := Nat.min_le_right _ _
      have short : chunk n tot (off + tot) ≤ n - tot := Nat.min_le_left _ _
      have progress := chunk_pos more (off + tot)
      rw [bmap_present alloc place live]
      simp only [Bind.bind, Except.bind, if_neg live, Bool.false_eq_true, if_false]
      rw [Nat.add_assoc off, ih _ _ (by omega) (by omega), load_block place fits]
      have split : n - tot =
          chunk n tot (off + tot) + (n - (tot + chunk n tot (off + tot))) := by omega
      rw [split, List.range_add, List.map_append, List.map_map, List.append_assoc]
      simp only [Function.comp_def, Nat.add_assoc]
    next done =>
      have all : tot = n := by omega
      simp [all]

end FileBytes
