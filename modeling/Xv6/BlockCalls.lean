import Mathlib.Data.Fin.SuccPred
import Xv6.BlockOwnership
import Xv6.Lib.EventRuns

/-!
# The free map in every state

Each call on an inode keeps the file system consistent: the marked data blocks
are those that the inodes name, every file has its blocks up to its size, and
the in-memory copies of inodes agree with the disk between calls. So a free
block is never freed, and reading never allocates.
-/

namespace BlockCalls
open Bitmaps ByteMemory FileBlocks BlockOwnership Function Outcomes Ownership EventRuns

variable {sb : Superblock} {s t : FileSystem} {inum i bn : Nat} {b : BlockNo}

/-- Every block of the first `n` bytes of the inode has an address. -/
def Covers (sb : Superblock) (s : FileSystem) (i n : Nat) : Prop :=
  ∀ k, k * BSIZE < n → ∃ slot, blockSlot k = some slot ∧ named sb s (i, slot) ≠ 0

structure Consistent (sb : Superblock) (s : FileSystem) : Prop where
  owned : Owned sb s
  covered : ∀ i, Allocated sb s i → Covers sb s i (s.ip i).size.toNat
  synced : ∀ i ip, s.inode i = some ip → ip = s.dinode i ∧ Allocated sb s i

theorem Covers.grown (h : Covers sb s i n) (grown : Grown sb inum s t) : Covers sb t i n := by
  intro k below
  obtain ⟨slot, place, some_⟩ := h k below
  exact ⟨slot, place, by rw [grown.names _ some_]; exact some_⟩

/-- One more chunk of a file is covered when its block has an address. -/
theorem Covers.chunk {off m : Nat} (h : Covers sb s i off) (fits : m ≤ BSIZE - off % BSIZE)
    {slot : Slot} (place : blockSlot (off / BSIZE) = some slot) (some_ : named sb s (i, slot) ≠ 0) :
    Covers sb s i (off + m) := by
  intro k below
  by_cases early : k * BSIZE < off
  · exact h k early
  · have here : k = off / BSIZE := by
      unfold BSIZE at *
      omega
    exact ⟨slot, here ▸ place, some_⟩

theorem writeLoop_yields {src : Nat → Byte} {fails : Nat → Option Nat} {n rounds tot off : Nat}
    (h : Owned sb s) (alloc : Allocated sb s inum) (covered : Covers sb s inum off)
    (inside : off + (n - tot) ≤ MAXFILE * BSIZE) :
    Yields (writeLoop sb inum src fails n rounds tot off s) fun r =>
      Grown sb inum s r.2.2 ∧ Covers sb r.2.2 inum r.2.1 ∧ r.2.1 ≤ off + (n - tot) := by
  induction rounds generalizing s tot off with
  | zero => exact yields_ok ⟨Grown.refl h, covered, Nat.le_add_right _ _⟩
  | succ rounds ih =>
    unfold writeLoop
    split
    next more =>
      have low : off / BSIZE < MAXFILE := by
        unfold MAXFILE BSIZE at *
        omega
      obtain ⟨slot, place⟩ := blockSlot_some low
      apply (bmap_reached h alloc place).bind
      rintro ⟨addr, t⟩ ⟨grown, names⟩
      simp only
      split
      next => exact yields_ok ⟨grown, covered.grown grown, Nat.le_add_right _ _⟩
      next some_ =>
        have name := names some_
        split
        next k _ =>
          have later := grown.trans (grown_wrote grown.owned place some_ name
            (copied src tot (min k (chunk n tot off)) off (t.block addr)) t.logged)
          exact yields_ok ⟨later, covered.grown later, Nat.le_add_right _ _⟩
        next =>
          have later := grown_wrote grown.owned place some_ name
            (copied src tot (chunk n tot off) off (t.block addr)) (addr :: t.logged)
          have still := (later.names (inum, slot) (name ▸ some_)).trans name
          have before := (covered.grown grown).grown later
          have fits : chunk n tot off ≤ BSIZE - off % BSIZE := Nat.min_le_right _ _
          have bound : chunk n tot off ≤ n - tot := Nat.min_le_left _ _
          have further := before.chunk fits place (still ▸ some_)
          have alloc' := (grown.trans later).allocated.mpr alloc
          apply (ih later.owned alloc' further (by omega)).mono
          rintro ⟨tot', off', u⟩ ⟨last, covered', bound'⟩
          exact ⟨(grown.trans later).trans last, covered', by simp only at bound' ⊢; omega⟩
    next => exact yields_ok ⟨Grown.refl h, covered, Nat.le_add_right _ _⟩

@[simp] theorem ip_iupdate (s : FileSystem) (inum i : Nat) : (iupdate sb inum s).ip i = s.ip i := by
  by_cases same : i = inum
  · subst same
    cases loaded : s.inode i <;> simp [iupdate, FileSystem.ip, loaded]
  · simp [iupdate, FileSystem.ip, same]

theorem named_iupdate (x : Nat × Slot) : named sb (iupdate sb inum s) x = named sb s x := by
  refine named_congr (fun i => ?_) (fun i => ?_) (fun i j _ _ => ?_) x
  · rw [ip_iupdate]
  · rw [ip_iupdate]
  · rfl

theorem owned_iupdate (h : Owned sb s) : Owned sb (iupdate sb inum s) :=
  ⟨h.partition.congr named_iupdate fun _ _ => Iff.rfl, h.reserved, h.boot⟩

theorem Covers.congr (h : Covers sb s i n)
    (names : ∀ slot, named sb t (i, slot) = named sb s (i, slot)) :
    Covers sb t i n := by
  intro k below
  obtain ⟨slot, place, some_⟩ := h k below
  exact ⟨slot, place, by rw [names]; exact some_⟩

/-- An inode that is changed in memory and then written back. -/
theorem Consistent.update (h : Consistent sb s) (owned : Owned sb t) (dinode : t.dinode = s.dinode)
    (others : ∀ i, i ≠ inum → t.inode i = s.inode i) (alloc : Allocated sb t inum)
    (covered : ∀ i, Allocated sb t i → Covers sb t i (t.ip i).size.toNat) :
    Consistent sb (iupdate sb inum t) where
  owned := owned_iupdate owned
  covered := by
    intro i alloc
    simp only [Allocated, ip_iupdate] at alloc ⊢
    exact (covered i alloc).congr fun _ => named_iupdate _
  synced := by
    intro i ip here
    replace here : t.inode i = some ip := here
    have now : t.ip i = ip := by simp [FileSystem.ip, here]
    simp only [Allocated, ip_iupdate]
    by_cases same : i = inum
    · subst same
      exact ⟨by simp [iupdate, now], alloc⟩
    · rw [others i same] at here
      have before : s.ip i = ip := by simp [FileSystem.ip, here]
      obtain ⟨disk, inside, typed⟩ := h.synced i ip here
      refine ⟨?_, inside, ?_⟩
      · simp only [iupdate, dinode, update_of_ne same]
        exact disk
      · rw [now, ← before]
        exact typed

theorem setIp_inode {ip : Dinode} (other : i ≠ inum) :
    (s.setIp inum ip).inode i = s.inode i := update_of_ne other ..

/-- The inode with another size. -/
def resized (s : FileSystem) (inum : Nat) (n : BitVec 32) : FileSystem :=
  s.setIp inum { s.ip inum with size := n }

theorem named_resized {n : BitVec 32} (x : Nat × Slot) :
    named sb (resized s inum n) x = named sb s x := by
  refine named_congr (fun i => ?_) (fun i => ?_) (fun i j _ _ => ?_) x
  · simp only [resized, ip_setIp]
    split
    next same => rw [same]
    next => rfl
  · simp only [resized, ip_setIp]
    split
    next same => rw [same]
    next => rfl
  · rfl

theorem owned_resized {n : BitVec 32} (h : Owned sb s) : Owned sb (resized s inum n) :=
  ⟨h.partition.congr named_resized fun _ _ => Iff.rfl, h.reserved, h.boot⟩

theorem allocated_resized {n : BitVec 32} :
    Allocated sb (resized s inum n) i ↔ Allocated sb s i := by
  simp only [Allocated, resized, ip_setIp]
  split
  next same => simp [same]
  next => rfl

/-- A sum of two `uint`s that does not wrap. -/
theorem sum_toNat {off n : BitVec 32} (fits : ¬ off + n < off) :
    (off + n).toNat = off.toNat + n.toNat := by
  have := off.isLt
  have := n.isLt
  rw [BitVec.lt_def, BitVec.toNat_add] at fits
  rw [BitVec.toNat_add]
  omega

/-- The other inodes are covered as before, and this one as the caller knows. -/
theorem Consistent.covers_grown (h : Consistent sb s) (grown : Grown sb inum s t)
    (here : Covers sb t inum (t.ip inum).size.toNat) (i : Nat) (alloc : Allocated sb t i) :
    Covers sb t i (t.ip i).size.toNat := by
  by_cases same : i = inum
  · exact same ▸ here
  · rw [grown.local_.size i]
    exact (h.covered i (grown.allocated.mp alloc)).grown grown

theorem Consistent.covers_resized (h : Consistent sb s) (grown : Grown sb inum s t) {n : BitVec 32}
    (here : Covers sb t inum n.toNat) (i : Nat) (alloc : Allocated sb (resized t inum n) i) :
    Covers sb (resized t inum n) i ((resized t inum n).ip i).size.toNat := by
  have alloc := allocated_resized.mp alloc
  have before : Covers sb t i ((resized t inum n).ip i).size.toNat := by
    simp only [resized, ip_setIp]
    split
    next same => exact same ▸ here
    next =>
      rw [grown.local_.size i]
      exact (h.covered i (grown.allocated.mp alloc)).grown grown
  exact before.congr fun _ => named_resized _

theorem writei_yields {src : Nat → Byte} {fails : Nat → Option Nat} {off n : BitVec 32}
    (h : Consistent sb s) (alloc : Allocated sb s inum) :
    Yields (writei sb inum src fails off n s) fun r => Consistent sb r.2 := by
  unfold writei
  split
  · exact yields_ok h
  next small =>
    rw [not_or] at small
    split
    · exact yields_ok h
    next fits =>
      have sum := sum_toNat small.2
      have low : off.toNat ≤ (s.ip inum).size.toNat := by
        have below := small.1
        rw [BitVec.lt_def] at below
        omega
      have start : Covers sb s inum off.toNat := fun k below =>
        h.covered inum alloc k (by omega)
      apply (writeLoop_yields h.owned alloc start (by omega)).bind
      rintro ⟨tot, off', t⟩ ⟨grown, covered, bound⟩
      have alloc' := grown.allocated.mpr alloc
      have kept : Covers sb t inum (t.ip inum).size.toNat := by
        rw [grown.local_.size]
        exact (h.covered inum alloc).grown grown
      simp only
      split
      next longer =>
        have short : (BitVec.ofNat 32 off').toNat = off' := by
          rw [BitVec.toNat_ofNat]
          unfold MAXFILE BSIZE at fits
          simp only at bound
          omega
        have covered' : Covers sb t inum (BitVec.ofNat 32 off').toNat := by
          rw [short]
          exact covered
        have others (i : Nat) (other : i ≠ inum) :
            (resized t inum (BitVec.ofNat 32 off')).inode i = s.inode i :=
          (setIp_inode other).trans (grown.local_.others i other)
        exact yields_ok (h.update (owned_resized grown.owned) grown.local_.dinode others
          (allocated_resized.mpr alloc') (h.covers_resized grown covered'))
      next =>
        exact yields_ok (h.update grown.owned grown.local_.dinode grown.local_.others alloc'
          (h.covers_grown grown kept))

/-- The state after a block was freed. -/
def freed (sb : Superblock) (s : FileSystem) (b : BlockNo) : FileSystem :=
  { s with bits := unmark s.bits b.toNat, logged := BBLOCK sb b :: s.logged }

theorem bfree_eq (marked : Marked s.bits b.toNat) : bfree sb b s = .ok (freed sb s b) :=
  if_pos marked

theorem named_freed (x : Nat × Slot) : named sb (freed sb s b) x = named sb s x := by
  refine named_congr (fun i => ?_) (fun i => ?_) (fun i j _ _ => ?_) x <;> rfl

theorem inUse_unmark {c : BlockNo} (bits : t.bits = unmark s.bits b.toNat) :
    InUse sb t c ↔ c ≠ b ∧ InUse sb s c := by
  rw [InUse, InUse, bits, marked_unmark, ne_eq, BitVec.toNat_inj]
  exact and_left_comm

/-- While an inode loses blocks, `own` is what is still to be freed. -/
structure Freeing (sb : Superblock) (own : Nat × Slot → BlockNo) (s : FileSystem) : Prop where
  partition : Partition 0 own (InUse sb s)
  reserved : ∀ b, b < metaBlocks sb → Marked s.bits b
  boot : 0 < metaBlocks sb

theorem Freeing.release {own own' : Nat × Slot → BlockNo} (h : Freeing sb own s) {x : Nat × Slot}
    (some_ : own x ≠ 0) (names : ∀ y, own' y = update own x 0 y) :
    Marked s.bits (own x).toNat ∧ Freeing sb own' (freed sb s (own x)) := by
  have use := h.partition.in_use some_
  refine ⟨use.2, h.partition.release some_ names fun c _ => inUse_unmark rfl, ?_, h.boot⟩
  intro c below
  have apart : c ≠ (own x).toNat := by
    rintro rfl
    have data := use.1.1
    omega
  exact marked_unmark.mpr ⟨apart, h.reserved c below⟩

/-- The direct blocks of an inode that have been freed so far. -/
structure Trimmed (sb : Superblock) (inum : Nat) (s t : FileSystem) (rest : List (Fin 12)) :
    Prop where
  owned : Owned sb t
  local_ : Local inum s t
  names : ∀ i slot, i ≠ inum → named sb t (i, slot) = named sb s (i, slot)
  gone : ∀ k, k ∉ rest → (t.ip inum).addrs k.castSucc = 0

theorem freeing_of_owned (h : Owned sb s) : Freeing sb (named sb s) s :=
  ⟨h.partition, h.reserved, h.boot⟩

theorem Freeing.owned {own : Nat × Slot → BlockNo} (h : Freeing sb own s)
    (bits : t.bits = s.bits) (names : ∀ x, named sb t x = own x) : Owned sb t where
  partition := h.partition.congr names fun _ _ => by rw [InUse, InUse, bits]
  reserved := by
    rw [bits]
    exact h.reserved
  boot := h.boot

theorem freeDirect_yields {k : Fin 12} {rest : List (Fin 12)} (alloc : Allocated sb s inum)
    (h : Trimmed sb inum s t (k :: rest)) :
    Yields (freeDirect sb inum k t) fun u => Trimmed sb inum s u rest := by
  have alloc' := h.local_.allocated.mpr alloc
  have name : named sb t (inum, .addr k.castSucc) = (t.ip inum).addrs k.castSucc := named_eq alloc'
  unfold freeDirect
  split
  next zero =>
    refine yields_ok ⟨h.owned, h.local_, h.names, fun k' out => ?_⟩
    by_cases same : k' = k
    · exact same ▸ zero
    · exact h.gone k' (by simp [same, out])
  next some_ =>
    have names (x : Nat × Slot) :
        named sb ((freed sb t ((t.ip inum).addrs k.castSucc)).setAddr inum k.castSucc 0) x
          = update (named sb t) (inum, .addr k.castSucc) 0 x := by
      have before : named sb (freed sb t ((t.ip inum).addrs k.castSucc)) = named sb t :=
        funext named_freed
      have alloc'' : Allocated sb (freed sb t ((t.ip inum).addrs k.castSucc)) inum := alloc'
      rw [← before]
      refine named_setAddr alloc'' (fun last => ?_) x
      exact absurd last (Fin.castSucc_ne_last k)
    obtain ⟨marked, released⟩ := (freeing_of_owned h.owned).release (name ▸ some_) names
    rw [name] at marked released
    rw [bfree_eq marked]
    refine yields_ok ⟨released.owned rfl fun _ => rfl, ?_, ?_, ?_⟩
    · have first : Local inum t (freed sb t ((t.ip inum).addrs k.castSucc)) :=
        ⟨fun _ => rfl, rfl, fun _ _ => rfl, id⟩
      exact h.local_.trans (first.trans (local_setAddr inum k.castSucc 0))
    · intro i slot other
      rw [names, update_of_ne (by simp [other]), h.names i slot other]
    · intro k' out
      rw [ip_setAddr, if_pos rfl]
      by_cases same : k' = k
      · subst same
        exact update_self ..
      · have apart : k'.castSucc ≠ k.castSucc := fun eq => same (Fin.castSucc_injective _ eq)
        exact (update_of_ne apart ..).trans (h.gone k' (by simp [same, out]))

/-- What is still to be freed when entries of the indirect block of an inode
are left. -/
def listed (sb : Superblock) (s : FileSystem) (inum : Nat) (rest : List (Fin 256))
    (x : Nat × Slot) : BlockNo :=
  match x with
  | (i, .entry j) => if i = inum ∧ j ∉ rest then 0 else named sb s (i, .entry j)
  | (i, .addr k) => named sb s (i, .addr k)

theorem freeEntry_yields {j : Fin 256} {rest : List (Fin 256)} (alloc : Allocated sb s inum)
    (some_ : (s.ip inum).addrs indirect ≠ 0) (once : (j :: rest).Nodup)
    (h : Freeing sb (listed sb s inum (j :: rest)) t) (same : t.block = s.block) :
    Yields (freeEntry sb ((s.ip inum).addrs indirect) j t) fun u =>
      Freeing sb (listed sb s inum rest) u ∧ ∃ bits logged,
        u = { t with bits := bits, logged := logged } := by
  have entry : t.entry ((s.ip inum).addrs indirect) j = named sb s (inum, .entry j) := by
    rw [named_eq alloc]
    simp only [slotAddr, if_neg some_, FileSystem.entry, same]
  have out := (List.nodup_cons.mp once).1
  have names : ∀ y, listed sb s inum rest y
      = update (listed sb s inum (j :: rest)) (inum, .entry j) 0 y := by
    rintro ⟨i, slot⟩
    cases slot with
    | addr k =>
      rw [update_of_ne (by simp)]
      rfl
    | entry j' =>
      by_cases here : (i, Slot.entry j') = (inum, Slot.entry j)
      · obtain ⟨rfl, eq⟩ := Prod.mk.inj here
        obtain rfl := Slot.entry.inj eq
        rw [update_self]
        simp [listed, out]
      · rw [update_of_ne here]
        have apart : i = inum → j' ≠ j := by
          rintro rfl rfl
          exact here rfl
        simp only [listed, List.mem_cons, not_or]
        by_cases mine : i = inum
        · simp [mine, apart mine]
        · simp [mine]
  have held : listed sb s inum (j :: rest) (inum, .entry j) = named sb s (inum, .entry j) := by
    simp [listed]
  unfold freeEntry
  rw [entry]
  split
  next zero =>
    refine yields_ok ⟨⟨h.partition.congr (fun y => ?_) fun _ _ => Iff.rfl, h.reserved, h.boot⟩,
      t.bits, t.logged, rfl⟩
    rw [names]
    by_cases here : y = (inum, .entry j)
    · subst here
      rw [update_self, held, zero]
    · rw [update_of_ne here]
  next live =>
    obtain ⟨marked, released⟩ := h.release (held ▸ live) names
    rw [held] at marked released
    rw [bfree_eq marked]
    exact yields_ok ⟨released, _, _, rfl⟩

/-- The names after the indirect block itself has gone. -/
theorem named_clearIndirect (alloc : Allocated sb s inum) (x : Nat × Slot) :
    named sb (s.setAddr inum indirect 0) x
      = update (listed sb s inum []) (inum, .addr indirect) 0 x := by
  obtain ⟨i, slot⟩ := x
  by_cases here : i = inum
  · subst here
    rw [named_eq (allocated_setAddr.mpr alloc)]
    cases slot with
    | addr k =>
      by_cases same : k = indirect
      · subst same
        simp [slotAddr, ip_setAddr]
      · have apart : (i, Slot.addr k) ≠ (i, Slot.addr indirect) := by simp [same]
        rw [update_of_ne apart]
        simp [listed, named_eq alloc, slotAddr, ip_setAddr, same]
    | entry j =>
      rw [update_of_ne (by simp)]
      simp [listed, slotAddr, ip_setAddr]
  · have apart : (i, slot) ≠ (inum, Slot.addr indirect) := by simp [here]
    rw [update_of_ne apart]
    have same : ∀ slot, named sb (s.setAddr inum indirect 0) (i, slot) = named sb s (i, slot) := by
      intro slot
      simp only [named, allocated_setAddr]
      cases slot with
      | addr k => simp [slotAddr, ip_setAddr, here]
      | entry j =>
        simp [slotAddr, ip_setAddr, here]
        rfl
    rw [same]
    cases slot <;> simp [listed, here]

/-- An inode without blocks. -/
structure Emptied (sb : Superblock) (inum : Nat) (s t : FileSystem) : Prop where
  owned : Owned sb t
  local_ : Local inum s t
  names : ∀ i slot, i ≠ inum → named sb t (i, slot) = named sb s (i, slot)
  empty : ∀ slot, named sb t (inum, slot) = 0

/-- While the entries of the indirect block of an inode are freed. -/
structure Unlisting (sb : Superblock) (inum : Nat) (s : FileSystem) (t : FileSystem)
    (rest : List (Fin 256)) : Prop where
  once : rest.Nodup
  freeing : Freeing sb (listed sb s inum rest) t
  same : ∃ bits logged, t = { s with bits := bits, logged := logged }

theorem listed_all (x : Nat × Slot) :
    listed sb s inum (List.finRange 256) x = named sb s x := by
  obtain ⟨i, slot⟩ := x
  cases slot <;> simp [listed]

/-- The indirect block and what it names, when it is all that the inode has. -/
theorem unlist_yields (alloc : Allocated sb s inum) (h : Owned sb s)
    (some_ : (s.ip inum).addrs indirect ≠ 0)
    (direct : ∀ k, k ≠ Fin.last 12 → (s.ip inum).addrs k = 0) :
    Yields (do
      let t ← (List.finRange 256).foldlM
        (fun t j => freeEntry sb ((s.ip inum).addrs indirect) j t) s
      let u ← bfree sb ((s.ip inum).addrs indirect) t
      pure (u.setAddr inum indirect 0)) (Emptied sb inum s) := by
  have start : Unlisting sb inum s s (List.finRange 256) := by
    refine ⟨List.nodup_finRange 256, ⟨h.partition.congr listed_all fun _ _ => Iff.rfl,
      h.reserved, h.boot⟩, s.bits, s.logged, rfl⟩
  have keep : ∀ t j rest, Unlisting sb inum s t (j :: rest) →
      Yields (freeEntry sb ((s.ip inum).addrs indirect) j t) fun u =>
        Unlisting sb inum s u rest := by
    rintro t j rest ⟨once, freeing, bits, logged, rfl⟩
    apply (freeEntry_yields alloc some_ once freeing rfl).mono
    rintro u ⟨freeing', bits', logged', rfl⟩
    exact ⟨(List.nodup_cons.mp once).2, freeing', bits', logged', rfl⟩
  apply (yields_foldlM keep start).bind
  rintro t ⟨-, freeing, bits, logged, rfl⟩
  have held : listed sb s inum [] (inum, .addr indirect) = (s.ip inum).addrs indirect :=
    named_eq alloc
  obtain ⟨marked, released⟩ := freeing.release (held ▸ some_) fun _ => rfl
  rw [held] at marked released
  rw [bfree_eq marked]
  have names := named_clearIndirect alloc
  refine yields_ok ⟨released.owned rfl names, ?_, ?_, ?_⟩
  · have first : Local inum s (freed sb { s with bits := bits, logged := logged }
        ((s.ip inum).addrs indirect)) := ⟨fun _ => rfl, rfl, fun _ _ => rfl, id⟩
    exact first.trans (local_setAddr inum indirect 0)
  · intro i slot other
    refine (names (i, slot)).trans ?_
    rw [update_of_ne (by simp [other])]
    cases slot <;> simp [listed, other]
  · intro slot
    refine (names (inum, slot)).trans ?_
    by_cases same : (inum, slot) = (inum, Slot.addr indirect)
    · rw [same, update_self]
    · rw [update_of_ne same]
      cases slot with
      | addr k =>
        have other : k ≠ Fin.last 12 := fun last => same (last ▸ rfl)
        exact (named_eq alloc).trans (direct k other)
      | entry j => simp [listed]

theorem freeIndirect_yields (alloc : Allocated sb s inum) (h : Owned sb s)
    (direct : ∀ k : Fin 12, (s.ip inum).addrs k.castSucc = 0) :
    Yields (freeIndirect sb inum s) (Emptied sb inum s) := by
  have addrs_zero (k : Fin 13) (other : k ≠ Fin.last 12) : (s.ip inum).addrs k = 0 := by
    have zero := direct (k.castPred other)
    rwa [Fin.castSucc_castPred] at zero
  unfold freeIndirect
  simp only
  split
  next zero =>
    refine yields_ok ⟨h, Local.refl, fun _ _ _ => rfl, fun slot => (named_eq alloc).trans ?_⟩
    cases slot with
    | addr k =>
      by_cases last : k = Fin.last 12
      · exact last ▸ zero
      · exact addrs_zero k last
    | entry j => exact if_pos zero
  next some_ => exact unlist_yields alloc h some_ addrs_zero

theorem itrunc_yields (h : Consistent sb s) (alloc : Allocated sb s inum)
    (loaded : s.inode inum ≠ none) :
    Yields (itrunc sb inum s) fun t => Consistent sb t ∧ Allocated sb t inum ∧
      t.inode inum ≠ none ∧ ∀ slot, named sb t (inum, slot) = 0 := by
  have start : Trimmed sb inum s s (List.finRange 12) :=
    ⟨h.owned, Local.refl, fun _ _ _ => rfl, fun k out => absurd (List.mem_finRange k) out⟩
  have keep : ∀ t k rest, Trimmed sb inum s t (k :: rest) →
      Yields (freeDirect sb inum k t) fun u => Trimmed sb inum s u rest :=
    fun _ _ _ trimmed => freeDirect_yields alloc trimmed
  apply (yields_foldlM keep start).bind
  intro t trimmed
  have direct : ∀ k : Fin 12, (t.ip inum).addrs k.castSucc = 0 :=
    fun k => trimmed.gone k List.not_mem_nil
  have alloc' := trimmed.local_.allocated.mpr alloc
  apply (freeIndirect_yields alloc' trimmed.owned direct).bind
  intro u empty
  have local_ := trimmed.local_.trans empty.local_
  have alloc'' := local_.allocated.mpr alloc
  have alive : Allocated sb (resized u inum 0) inum := allocated_resized.mpr alloc''
  have covers (i : Nat) (live : Allocated sb (resized u inum 0) i) :
      Covers sb (resized u inum 0) i ((resized u inum 0).ip i).size.toNat := by
    by_cases same : i = inum
    · subst same
      intro k below
      simp [resized] at below
    · have before := allocated_resized.mp live
      have size : ((resized u inum 0).ip i).size = (s.ip i).size := by
        rw [resized, ip_setIp, if_neg same, local_.size i]
      rw [size]
      apply (h.covered i (local_.allocated.mp before)).congr
      intro slot
      rw [named_resized, empty.names i slot same, trimmed.names i slot same]
  refine yields_ok ⟨h.update (owned_resized empty.owned) local_.dinode
    (fun i other => (setIp_inode other).trans (local_.others i other)) alive covers, ?_, ?_, ?_⟩
  · simp only [Allocated, ip_iupdate]
    exact alive
  · simp [iupdate, FileSystem.setIp]
  · intro slot
    rw [named_iupdate]
    exact (named_resized _).trans (empty.empty slot)

theorem readLoop_present {fails : Nat → Bool} {n rounds tot off : Nat} {out : List Byte}
    (alloc : Allocated sb s inum) (covered : Covers sb s inum (off + (n - tot))) :
    Yields (readLoop sb inum fails n rounds tot off out s) fun r => r.2.2 = s := by
  induction rounds generalizing tot off out with
  | zero => exact yields_ok rfl
  | succ rounds ih =>
    unfold readLoop
    split
    next more =>
      have below : off / BSIZE * BSIZE < off + (n - tot) := by
        unfold BSIZE
        omega
      obtain ⟨slot, place, some_⟩ := covered _ below
      rw [bmap_present alloc place some_]
      refine (yields_ok (P := fun r => r = (named sb s (inum, slot), s)) rfl).bind ?_
      rintro _ rfl
      simp only [if_neg some_]
      split
      · exact yields_ok rfl
      · have bound : chunk n tot off ≤ n - tot := Nat.min_le_left _ _
        have same : off + chunk n tot off + (n - (tot + chunk n tot off)) = off + (n - tot) := by
          omega
        exact ih (same ▸ covered)
    next => exact yields_ok rfl

/-- `readi` changes nothing: every block it reads is there. -/
theorem readi_present {fails : Nat → Bool} {off n : BitVec 32} (alloc : Allocated sb s inum)
    (covered : Covers sb s inum (s.ip inum).size.toNat) :
    Yields (readi sb inum fails off n s) fun r => r.2.2 = s := by
  unfold readi
  simp only
  split
  · exact yields_ok rfl
  next small =>
    rw [not_or] at small
    have sum := sum_toNat small.2
    apply readLoop_present alloc
    have low := small.1
    rw [BitVec.lt_def] at low
    intro k below
    apply covered k
    split at below
    next past =>
      rw [BitVec.toNat_sub_of_le (by rw [BitVec.le_def]; omega)] at below
      omega
    next inside =>
      rw [BitVec.lt_def, sum] at inside
      omega

/-- Between calls the copy of an inode is the inode on disk. -/
theorem Consistent.ip_eq (h : Consistent sb s) (i : Nat) : s.ip i = s.dinode i := by
  cases here : s.inode i with
  | none => simp [FileSystem.ip, here]
  | some ip => simpa [FileSystem.ip, here] using (h.synced i ip here).1

/-- A state with the same inodes, in memory or on disk. -/
theorem Consistent.congr (h : Consistent sb s) (bits : t.bits = s.bits) (block : t.block = s.block)
    (dinode : t.dinode = s.dinode) (ip : ∀ i, t.ip i = s.ip i)
    (copies : ∀ i c, t.inode i = some c → c = s.dinode i ∧ Allocated sb s i) :
    Consistent sb t := by
  have names : ∀ x, named sb t x = named sb s x := by
    refine named_congr (fun i => by rw [ip]) (fun i => by rw [ip]) fun i j _ _ => ?_
    rw [FileSystem.entry, FileSystem.entry, block]
  have alloc : ∀ i, Allocated sb t i ↔ Allocated sb s i := by simp [Allocated, ip]
  refine ⟨⟨h.owned.partition.congr names fun _ _ => ?_, ?_, h.owned.boot⟩, ?_, ?_⟩
  · rw [InUse, InUse, bits]
  · rw [bits]
    exact h.owned.reserved
  · intro i live
    rw [ip i]
    exact (h.covered i ((alloc i).mp live)).congr fun _ => names _
  · intro i c here
    rw [dinode, alloc]
    exact copies i c here

theorem ilock_ok (h : Consistent sb s) (ok : ilock sb inum s = .ok t) :
    Consistent sb t ∧ Allocated sb t inum ∧ t.inode inum ≠ none ∧ t.logged = s.logged := by
  unfold ilock at ok
  split at ok
  · exact nomatch ok
  next inside =>
    split at ok
    next ip here =>
      obtain rfl := Except.ok.inj ok
      exact ⟨h, (h.synced inum ip here).2, by simp [here], rfl⟩
    next none_ =>
      split at ok
      · exact nomatch ok
      next typed =>
        obtain rfl := Except.ok.inj ok
        have same : ∀ i, (s.setIp inum (s.dinode inum)).ip i = s.ip i := by
          intro i
          rw [ip_setIp]
          split
          next here => rw [here, h.ip_eq]
          next => rfl
        have alloc : Allocated sb s inum := ⟨by omega, by rw [h.ip_eq]; exact typed⟩
        refine ⟨h.congr rfl rfl rfl same fun i c here => ?_, ?_, ?_, rfl⟩
        · by_cases eq : i = inum
          · subst eq
            simp only [FileSystem.setIp, update_self, Option.some.injEq] at here
            exact ⟨here.symm, alloc⟩
          · rw [setIp_inode eq] at here
            exact h.synced i c here
        · simp only [Allocated, same]
          exact alloc
        · simp [FileSystem.setIp]

theorem forget_consistent (h : Consistent sb s) (inum : Nat) :
    Consistent sb { s with inode := Function.update s.inode inum none } := by
  have same : ∀ i, FileSystem.ip { s with inode := Function.update s.inode inum none } i
      = s.ip i := by
    intro i
    rw [h.ip_eq]
    by_cases eq : i = inum
    · subst eq
      simp [FileSystem.ip]
    · have before := h.ip_eq i
      simpa [FileSystem.ip, eq] using before
  refine h.congr rfl rfl rfl same fun i c here => ?_
  by_cases eq : i = inum
  · subst eq
    simp at here
  · simp only [update_of_ne eq] at here
    exact h.synced i c here

/-- An inode gets another type while it has no blocks and no size, and nobody
has a copy of it. -/
theorem Consistent.retype (h : Consistent sb s) (unused : ∀ slot, named sb s (inum, slot) = 0)
    {d : Dinode} (blank : d.type ≠ 0 → d.addrs = (fun _ => 0) ∧ d.size = 0)
    (dinode : t.dinode = Function.update s.dinode inum d)
    (inode : t.inode = Function.update s.inode inum none)
    (bits : t.bits = s.bits) (block : t.block = s.block) : Consistent sb t := by
  have others (i : Nat) (other : i ≠ inum) : t.ip i = s.ip i := by
    simp [FileSystem.ip, dinode, inode, other]
  have here : t.ip inum = d := by simp [FileSystem.ip, dinode, inode]
  have names : ∀ x, named sb t x = named sb s x := by
    rintro ⟨i, slot⟩
    by_cases eq : i = inum
    · subst eq
      rw [unused slot]
      by_cases live : Allocated sb t i
      · obtain ⟨addrs, -⟩ := blank (here ▸ live.2)
        rw [named_eq live]
        cases slot <;> simp [slotAddr, here, addrs]
      · exact if_neg live
    · simp only [named, Allocated, others i eq]
      cases slot <;> simp [slotAddr, others i eq, FileSystem.entry, block]
  refine ⟨⟨h.owned.partition.congr names fun _ _ => ?_, ?_, h.owned.boot⟩, ?_, ?_⟩
  · rw [InUse, InUse, bits]
  · rw [bits]
    exact h.owned.reserved
  · intro i live
    by_cases eq : i = inum
    · subst eq
      obtain ⟨-, size⟩ := blank (here ▸ live.2)
      intro k below
      simp [here, size] at below
    · simp only [Allocated, others i eq] at live ⊢
      exact (h.covered i live).congr fun _ => names _
  · intro i c copy
    rw [inode] at copy
    by_cases eq : i = inum
    · subst eq
      simp at copy
    · rw [update_of_ne eq] at copy
      simp only [dinode, update_of_ne eq, Allocated, others i eq]
      exact h.synced i c copy

theorem ialloc_consistent (h : Consistent sb s) (type : BitVec 16) :
    Consistent sb (ialloc sb type s).2 := by
  unfold ialloc
  simp only
  split
  · exact h
  next inum found =>
    have free := List.find?_some found
    simp only [decide_eq_true_eq] at free
    have dead : ¬ Allocated sb s inum := fun live => live.2 (by rw [h.ip_eq]; exact free.2)
    have nobody : s.inode inum = none := by
      cases here : s.inode inum with
      | none => rfl
      | some c => exact absurd (h.synced inum c here).2 dead
    refine h.retype (fun slot => if_neg dead) (fun _ => ⟨rfl, rfl⟩) rfl ?_ rfl rfl
    exact (update_eq_self_iff.mpr nobody.symm).symm

theorem iputFree_yields (h : Consistent sb s) :
    Yields (iputFree sb inum s) (Consistent sb) := by
  unfold iputFree
  split
  · exact yields_ok h
  next ip here =>
    split
    next =>
      have alloc := (h.synced inum ip here).2
      apply (itrunc_yields h alloc (by simp [here])).bind
      rintro t ⟨consistent, alloc', loaded, unused⟩
      refine yields_ok (consistent.retype unused (d := { t.ip inum with type := 0 })
        (fun typed => absurd rfl typed) ?_ ?_ rfl rfl)
      · simp [iupdate, FileSystem.setIp, FileSystem.ip]
      · simp [iupdate, FileSystem.setIp]
    next => exact yields_ok h

/-- The faults of a call: `ilock` refuses inodes that are not allocated. -/
def Refused (x : Except Fault FileSystem) : Prop := x = .error .noType ∨ x = .error .notInode

theorem ilock_cases (sb : Superblock) (s : FileSystem) (inum : Nat) :
    Refused (ilock sb inum s) ∨ ∃ t, ilock sb inum s = .ok t := by
  unfold ilock
  split
  · exact Or.inl (Or.inr rfl)
  · split
    · exact Or.inr ⟨_, rfl⟩
    · split
      · exact Or.inl (Or.inl rfl)
      · exact Or.inr ⟨_, rfl⟩

/-- A call on a locked inode is refused by `ilock` or keeps the file system consistent. -/
theorem locked_call (h : Consistent sb s) {f : FileSystem → Except Fault FileSystem}
    (call : ∀ t, Consistent sb t → Allocated sb t inum → t.inode inum ≠ none →
      Yields (f t) (Consistent sb)) :
    Refused (ilock sb inum s >>= f) ∨ Yields (ilock sb inum s >>= f) (Consistent sb) := by
  rcases ilock_cases sb s inum with (refused | refused) | ⟨t, ok⟩
  · exact Or.inl (Or.inl (by rw [refused]; rfl))
  · exact Or.inl (Or.inr (by rw [refused]; rfl))
  · obtain ⟨consistent, alloc, loaded, -⟩ := ilock_ok h ok
    right
    rw [ok]
    exact call t consistent alloc loaded

theorem step_consistent (h : Consistent sb s) (c : Call) :
    Refused (step sb s c) ∨ Yields (step sb s c) (Consistent sb) := by
  cases c with
  | ialloc type => exact Or.inr (yields_ok (ialloc_consistent h type))
  | ilock inum =>
    rcases ilock_cases sb s inum with refused | ⟨t, ok⟩
    · exact Or.inl refused
    · exact Or.inr ⟨t, ok, (ilock_ok h ok).1⟩
  | forget inum => exact Or.inr (yields_ok (forget_consistent h inum))
  | writei inum src fails off n =>
    exact locked_call h fun t consistent alloc _ =>
      (writei_yields consistent alloc).bind fun _ after => yields_ok after
  | readi inum fails off n =>
    apply locked_call h
    intro t consistent alloc _
    apply (readi_present alloc (consistent.covered inum alloc)).bind
    rintro ⟨r, out, u⟩ same
    replace same : u = t := same
    subst same
    exact yields_ok consistent
  | itrunc inum =>
    exact locked_call h fun t consistent alloc loaded =>
      (itrunc_yields consistent alloc loaded).mono fun _ after => after.1
  | iput inum => exact Or.inr (iputFree_yields h)

theorem step_keeps (h : Consistent sb s) {c : Call} (ok : step sb s c = .ok t) :
    Consistent sb t := by
  rcases step_consistent h c with (refused | refused) | yields
  · rw [refused] at ok
    exact nomatch ok
  · rw [refused] at ok
    exact nomatch ok
  · exact yields.of_ok ok

theorem run_consistent (h : Consistent sb s) {cs : List Call} (ok : run (step sb) s cs = .ok t) :
    Consistent sb t :=
  run_invariant_all (fun _ _ _ consistent here => step_keeps consistent here) h ok

/-- In every state the marked data blocks are the disjoint union of the blocks
of the allocated inodes; allocation gives out none of these, and a free block
is never freed. -/
theorem marked_iff_named (sb : Superblock) (s : FileSystem) (h : Consistent sb s)
    (cs : List Call) :
    (∀ t, run (step sb) s cs = .ok t →
      (∀ b, DataBlock sb b → (Marked t.bits b.toNat ↔
        ∃ i slot, Allocated sb t i ∧ slotAddr t i slot = b)) ∧
      (∀ i j slot slot', Allocated sb t i → Allocated sb t j → slotAddr t i slot ≠ 0 →
        slotAddr t i slot = slotAddr t j slot' → i = j ∧ slot = slot') ∧
      (∀ i slot, Allocated sb t i → slotAddr t i slot ≠ 0 → DataBlock sb (slotAddr t i slot)) ∧
      (∀ i, t.ip i = t.dinode i) ∧
      ((balloc sb t).1 ≠ 0 → ∀ i slot, Allocated sb t i → slotAddr t i slot ≠ (balloc sb t).1)) ∧
    run (step sb) s cs ≠ .error .freeingFree := by
  constructor
  · intro t ok
    have sound := run_consistent h ok
    have owned := sound.owned
    refine ⟨?_, ?_, ?_, sound.ip_eq, ?_⟩
    · intro b data
      have some_ := owned.nonzero data
      have use : InUse sb t b ↔ Marked t.bits b.toNat := and_iff_right data
      rw [← use, owned.partition.used_iff b some_]
      constructor
      · rintro ⟨⟨i, slot⟩, name⟩
        have alloc := named_allocated (name ▸ some_)
        exact ⟨i, slot, alloc, (named_eq alloc).symm.trans name⟩
      · rintro ⟨i, slot, alloc, name⟩
        exact ⟨(i, slot), (named_eq alloc).trans name⟩
    · intro i j slot slot' live live' some_ same
      rw [← named_eq live, ← named_eq live'] at same
      rw [← named_eq live] at some_
      exact Prod.mk.inj (owned.partition.alone _ _ same some_)
    · intro i slot live some_
      rw [← named_eq live] at some_ ⊢
      exact owned.data some_
    · intro some_ i slot live
      rcases balloc_cases owned with full | ⟨b, got, data, clear⟩
      · rw [full] at some_
        exact absurd rfl some_
      · rw [got, ← named_eq live]
        exact owned.unnamed data clear _
  · apply run_ne_error (fun _ _ _ consistent here => step_keeps consistent here) _ h
    intro t c consistent bad
    rcases step_consistent consistent c with (refused | refused) | ⟨u, ok, -⟩
    · rw [refused] at bad
      exact nomatch bad
    · rw [refused] at bad
      exact nomatch bad
    · rw [ok] at bad
      exact nomatch bad

/-- A small disk with 50 data blocks, all free, and no inode allocated. -/
def smallDisk : Superblock := ⟨100, 50, 10, 32, 49⟩

def fresh : FileSystem where
  bits := fun k => if k < 6 then 255 else if k = 6 then 3 else 0
  dinode := fun _ => ⟨0, 0, 0, 0, 0, fun _ => 0⟩
  block := fun _ _ => 0
  inode := fun _ => none
  logged := []

theorem fresh_consistent : Consistent smallDisk fresh := by
  have dead : ∀ i, ¬ Allocated smallDisk fresh i := fun i live => live.2 rfl
  have names : ∀ x, named smallDisk fresh x = 0 := fun x => if_neg (dead x.1)
  have clear : ∀ b : Nat, 50 ≤ b → b < 100 → ¬ Marked fresh.bits b := by decide
  refine ⟨⟨⟨fun x y _ some_ => absurd (names x) some_, fun b some_ => ⟨fun use => ?_, ?_⟩⟩,
    by decide, by decide⟩, fun i live => absurd live (dead i), fun i ip here => nomatch here⟩
  · exact absurd use.2 (clear b.toNat use.1.1 use.1.2)
  · rintro ⟨x, name⟩
    exact absurd ((names x).symm.trans name).symm some_

theorem marked_iff_named_fresh :
    ∃ t, run (step smallDisk) fresh [.ialloc 2, .writei 1 (fun _ => 7) (fun _ => none) 0 3] = .ok t ∧
      (Marked t.bits 50 ↔ ∃ i slot, Allocated smallDisk t i ∧ slotAddr t i slot = 50) := by
  have all := marked_iff_named smallDisk fresh fresh_consistent
    [.ialloc 2, .writei 1 (fun _ => 7) (fun _ => none) 0 3]
  exact ⟨_, rfl, (all.1 _ rfl).1 50 (by unfold DataBlock; decide)⟩

end BlockCalls
