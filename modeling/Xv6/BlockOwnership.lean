import Xv6.FileBlocks
import Xv6.Lib.Outcomes
import Xv6.Lib.Ownership

/-!
# Who owns which block

The places that can name a data block are the entries of `addrs` and the
entries of the indirect block, of every allocated inode. The blocks that are
marked in the free map are those named by a place, and no two places name the
same one. Allocation grants a free block to an empty place; truncation releases
the blocks of an inode one by one.
-/

namespace BlockOwnership
open Bitmaps ByteMemory FileBlocks Function Outcomes Ownership

/-- The places of an inode that can name a block. -/
inductive Slot
  | addr (k : Fin 13)
  | entry (j : Fin 256)
  deriving DecidableEq

/-- Where the address of block `bn` of a file is kept. -/
def blockSlot (bn : Nat) : Option Slot :=
  if h : bn < 12 then some (.addr (Fin.castSucc ⟨bn, h⟩))
  else if h : bn - NDIRECT < 256 then some (.entry ⟨bn - NDIRECT, h⟩)
  else none

variable (sb : Superblock)

def Allocated (s : FileSystem) (i : Nat) : Prop := i < sb.ninodes.toNat ∧ (s.ip i).type ≠ 0

instance decidableAllocated (s : FileSystem) (i : Nat) : Decidable (Allocated sb s i) := by
  unfold Allocated
  infer_instance

/-- The block that a slot names, `0` for none. -/
def slotAddr (s : FileSystem) (i : Nat) : Slot → BlockNo
  | .addr k => (s.ip i).addrs k
  | .entry j => if (s.ip i).addrs indirect = 0 then 0 else s.entry ((s.ip i).addrs indirect) j

def named (s : FileSystem) (x : Nat × Slot) : BlockNo :=
  if Allocated sb s x.1 then slotAddr s x.1 x.2 else 0

/-- The blocks before the data blocks. -/
def metaBlocks : Nat := sb.size.toNat - sb.nblocks.toNat

def DataBlock (b : BlockNo) : Prop := metaBlocks sb ≤ b.toNat ∧ b.toNat < sb.size.toNat

def InUse (s : FileSystem) (b : BlockNo) : Prop := DataBlock sb b ∧ Marked s.bits b.toNat

/-- The marked data blocks are the named ones, each named once. -/
structure Owned (s : FileSystem) : Prop where
  partition : Partition 0 (named sb s) (InUse sb s)
  reserved : ∀ b, b < metaBlocks sb → Marked s.bits b
  boot : 0 < metaBlocks sb

variable {sb} {s t : FileSystem} {inum i bn : Nat} {b : BlockNo}

theorem named_allocated {slot : Slot} (h : named sb s (i, slot) ≠ 0) : Allocated sb s i := by
  by_contra free
  exact h (if_neg free)

theorem named_eq {slot : Slot} (h : Allocated sb s i) :
    named sb s (i, slot) = slotAddr s i slot := if_pos h

theorem Owned.nonzero (h : Owned sb s) (data : DataBlock sb b) : b ≠ 0 := by
  rintro rfl
  have boot := h.boot
  have first := data.1
  simp at first
  omega

theorem Owned.data (h : Owned sb s) {x : Nat × Slot} (some_ : named sb s x ≠ 0) :
    DataBlock sb (named sb s x) := (h.partition.in_use some_).1

/-- What the places name depends on types and addresses, and on the indirect blocks. -/
theorem named_congr (type : ∀ i, (t.ip i).type = (s.ip i).type)
    (addrs : ∀ i, (t.ip i).addrs = (s.ip i).addrs)
    (entry : ∀ i j, Allocated sb s i → (s.ip i).addrs indirect ≠ 0 →
      t.entry ((s.ip i).addrs indirect) j = s.entry ((s.ip i).addrs indirect) j)
    (x : Nat × Slot) : named sb t x = named sb s x := by
  obtain ⟨i, slot⟩ := x
  have same : Allocated sb t i ↔ Allocated sb s i := by simp [Allocated, type i]
  by_cases alloc : Allocated sb s i
  · rw [named_eq alloc, named_eq (same.mpr alloc)]
    cases slot with
    | addr k => simp [slotAddr, addrs i]
    | entry j =>
      simp only [slotAddr, addrs i]
      split
      · rfl
      next some_ => exact entry i j alloc some_
  · simp only [named, if_neg alloc, if_neg fun h => alloc (same.mp h)]

@[simp] theorem ip_setIp (s : FileSystem) (inum i : Nat) (ip : Dinode) :
    (s.setIp inum ip).ip i = if i = inum then ip else s.ip i := by
  by_cases same : i = inum
  · subst same
    simp [FileSystem.ip, FileSystem.setIp]
  · simp [FileSystem.ip, FileSystem.setIp, same]

theorem ip_setAddr (s : FileSystem) (inum i : Nat) (k : Fin 13) (b : BlockNo) :
    (s.setAddr inum k b).ip i =
      if i = inum then { s.ip inum with addrs := update (s.ip inum).addrs k b } else s.ip i := by
  simp [FileSystem.setAddr]

theorem allocated_setAddr {k : Fin 13} :
    Allocated sb (s.setAddr inum k b) i ↔ Allocated sb s i := by
  simp only [Allocated, ip_setAddr]
  split
  next same => simp [same]
  next => rfl

/-- The names after an address of an inode was set, with the entries of its
indirect block as the caller knows them to be. -/
theorem named_setAddr {k : Fin 13} (alloc : Allocated sb s inum)
    (entries : k = indirect → (∀ j, slotAddr s inum (.entry j) = 0) ∧ ∀ j, b ≠ 0 → s.entry b j = 0)
    (x : Nat × Slot) :
    named sb (s.setAddr inum k b) x = update (named sb s) (inum, .addr k) b x := by
  obtain ⟨i, slot⟩ := x
  by_cases here : i = inum
  · subst here
    rw [named_eq (allocated_setAddr.mpr alloc)]
    cases slot with
    | addr k' =>
      by_cases same : k' = k
      · subst same
        simp [slotAddr, ip_setAddr]
      · have apart : (i, Slot.addr k') ≠ (i, Slot.addr k) := by simp [same]
        rw [update_of_ne apart, named_eq alloc]
        simp [slotAddr, ip_setAddr, same]
    | entry j =>
      have apart : (i, Slot.entry j) ≠ (i, Slot.addr k) := by simp
      rw [update_of_ne apart, named_eq alloc]
      by_cases ind : k = indirect
      · obtain ⟨before, after⟩ := entries ind
        rw [before j]
        subst ind
        by_cases zero : b = 0
        · simp [slotAddr, ip_setAddr, zero]
        · have zeroed : (s.setAddr i indirect b).entry b j = 0 := after j zero
          simp [slotAddr, ip_setAddr, zeroed]
      · have other : indirect ≠ k := fun eq => ind eq.symm
        simp [slotAddr, ip_setAddr, other]
        rfl
  · have apart : (i, slot) ≠ (inum, Slot.addr k) := by simp [here]
    rw [update_of_ne apart]
    simp only [named, allocated_setAddr]
    cases slot with
    | addr k' => simp [slotAddr, ip_setAddr, here]
    | entry j =>
      simp [slotAddr, ip_setAddr, here]
      rfl

/-- The state after block `b` was allocated: marked and zeroed. -/
def taken (sb : Superblock) (s : FileSystem) (b : BlockNo) : FileSystem :=
  { s with
    bits := mark s.bits b.toNat
    block := update s.block b (fun _ => 0)
    logged := b :: BBLOCK sb b :: s.logged }

theorem balloc_cases (h : Owned sb s) :
    balloc sb s = (0, s) ∨
      ∃ b, balloc sb s = (b, taken sb s b) ∧ DataBlock sb b ∧ ¬ Marked s.bits b.toNat := by
  unfold balloc
  split
  · exact Or.inl rfl
  next b found =>
    obtain ⟨below, clear⟩ := firstClear_some found
    have bound := sb.size.isLt
    have number : (BitVec.ofNat 32 b).toNat = b := by
      rw [BitVec.toNat_ofNat]
      exact Nat.mod_eq_of_lt (by omega)
    have data : metaBlocks sb ≤ b := by
      by_contra early
      exact clear (h.reserved b (by omega))
    refine Or.inr ⟨BitVec.ofNat 32 b, ?_, ⟨?_, ?_⟩, ?_⟩
    · simp only [taken, number]
    · rw [number]
      exact data
    · rw [number]
      exact below
    · rw [number]
      exact clear

/-- A free block is named by no place. -/
theorem Owned.unnamed (h : Owned sb s) (data : DataBlock sb b) (clear : ¬ Marked s.bits b.toNat)
    (x : Nat × Slot) : named sb s x ≠ b :=
  h.partition.free (h.nonzero data) (fun use => clear use.2) x

theorem Owned.unnamed_indirect (h : Owned sb s) (data : DataBlock sb b)
    (clear : ¬ Marked s.bits b.toNat) (alloc : Allocated sb s i) :
    (s.ip i).addrs indirect ≠ b := by
  have := h.unnamed data clear (i, .addr indirect)
  rwa [named_eq alloc] at this

theorem named_taken (h : Owned sb s) (data : DataBlock sb b) (clear : ¬ Marked s.bits b.toNat)
    (x : Nat × Slot) : named sb (taken sb s b) x = named sb s x := by
  have type : ∀ i, ((taken sb s b).ip i).type = (s.ip i).type := fun _ => rfl
  apply named_congr type (fun _ => rfl)
  intro i j alloc _
  have apart := h.unnamed_indirect data clear alloc
  simp [FileSystem.entry, taken, apart]

theorem inUse_mark {c : BlockNo} (bits : t.bits = mark s.bits b.toNat) (data : DataBlock sb b) :
    InUse sb t c ↔ c = b ∨ InUse sb s c := by
  rw [InUse, InUse, bits, marked_mark, BitVec.toNat_inj]
  constructor
  · rintro ⟨inside, same | marked⟩
    · exact Or.inl same
    · exact Or.inr ⟨inside, marked⟩
  · rintro (rfl | ⟨inside, marked⟩)
    · exact ⟨data, Or.inl rfl⟩
    · exact ⟨inside, Or.inr marked⟩

/-- The state after a free block went to an empty place. -/
theorem Owned.grant (h : Owned sb s) {x : Nat × Slot} (empty : named sb s x = 0)
    (data : DataBlock sb b) (clear : ¬ Marked s.bits b.toNat)
    (bits : t.bits = mark s.bits b.toNat)
    (names : ∀ y, named sb t y = update (named sb s) x b y) : Owned sb t where
  partition := h.partition.grant empty (h.nonzero data) (fun use => clear use.2) names
    fun _ _ => inUse_mark bits data
  reserved := by
    intro c below
    rw [bits, marked_mark]
    exact Or.inr (h.reserved c below)
  boot := h.boot

/-- Nothing has changed about the inodes but the addresses of one of them, in
its in-memory copy. -/
structure Local (inum : Nat) (s t : FileSystem) : Prop where
  fields : ∀ i, { t.ip i with addrs := (s.ip i).addrs } = s.ip i
  dinode : t.dinode = s.dinode
  others : ∀ i, i ≠ inum → t.inode i = s.inode i
  loaded : s.inode inum ≠ none → t.inode inum ≠ none

theorem Local.refl : Local inum s s := ⟨fun _ => rfl, rfl, fun _ _ => rfl, id⟩

theorem Local.trans {u : FileSystem} (h : Local inum s t) (h' : Local inum t u) :
    Local inum s u where
  fields := by
    intro i
    have first := h.fields i
    rw [← h'.fields i] at first
    exact first
  dinode := h'.dinode.trans h.dinode
  others := fun i other => (h'.others i other).trans (h.others i other)
  loaded := fun some_ => h'.loaded (h.loaded some_)

theorem Local.type (h : Local inum s t) (i : Nat) : (t.ip i).type = (s.ip i).type := by
  simpa using congrArg Dinode.type (h.fields i)

theorem Local.size (h : Local inum s t) (i : Nat) : (t.ip i).size = (s.ip i).size := by
  simpa using congrArg Dinode.size (h.fields i)

theorem Local.nlink (h : Local inum s t) (i : Nat) : (t.ip i).nlink = (s.ip i).nlink := by
  simpa using congrArg Dinode.nlink (h.fields i)

theorem Local.allocated (h : Local inum s t) : Allocated sb t i ↔ Allocated sb s i := by
  simp [Allocated, h.type i]

theorem local_setAddr (inum : Nat) (k : Fin 13) (b : BlockNo) :
    Local inum s (s.setAddr inum k b) where
  fields := by
    intro i
    simp only [ip_setAddr]
    split
    next same =>
      subst same
      rfl
    next => rfl
  dinode := rfl
  others := by
    intro i other
    simp [FileSystem.setAddr, FileSystem.setIp, other]
  loaded := by
    intro _
    simp [FileSystem.setAddr, FileSystem.setIp]

/-- What happens to the file system while `bmap` works for an inode: places may
gain blocks, and none loses its block. -/
structure Grown (sb : Superblock) (inum : Nat) (s t : FileSystem) : Prop where
  owned : Owned sb t
  names : ∀ x, named sb s x ≠ 0 → named sb t x = named sb s x
  local_ : Local inum s t

theorem Grown.refl (h : Owned sb s) : Grown sb inum s s := ⟨h, fun _ _ => rfl, Local.refl⟩

theorem Grown.trans {u : FileSystem} (h : Grown sb inum s t) (h' : Grown sb inum t u) :
    Grown sb inum s u where
  owned := h'.owned
  names := by
    intro x some_
    have first := h.names x some_
    rw [h'.names x (first ▸ some_), first]
  local_ := h.local_.trans h'.local_

theorem Grown.allocated (h : Grown sb inum s t) : Allocated sb t i ↔ Allocated sb s i :=
  h.local_.allocated

/-- A place of the inode that gained a block and the state after it. -/
theorem Grown.grant (h : Owned sb s) {slot : Slot} (empty : named sb s (inum, slot) = 0)
    (data : DataBlock sb b) (clear : ¬ Marked s.bits b.toNat)
    (bits : t.bits = mark s.bits b.toNat)
    (names : ∀ y, named sb t y = update (named sb s) (inum, slot) b y)
    (local_ : Local inum s t) : Grown sb inum s t where
  owned := h.grant empty data clear bits names
  names := by
    intro y some_
    have apart : y ≠ (inum, slot) := by
      rintro rfl
      exact some_ empty
    rw [names, update_of_ne apart]
  local_ := local_

/-- A result that may be zero, and the place that names it otherwise. -/
structure Reached (sb : Superblock) (inum : Nat) (slot : Slot) (s : FileSystem)
    (r : BlockNo × FileSystem) : Prop where
  grown : Grown sb inum s r.2
  names : r.1 ≠ 0 → named sb r.2 (inum, slot) = r.1

theorem addrOrAlloc_reached (h : Owned sb s) (alloc : Allocated sb s inum) (k : Fin 13) :
    Reached sb inum (.addr k) s (addrOrAlloc sb inum k s) := by
  by_cases zero : (s.ip inum).addrs k = 0
  · have empty : named sb s (inum, .addr k) = 0 := (named_eq alloc).trans zero
    rcases balloc_cases h with full | ⟨b, got, data, clear⟩
    · simp only [addrOrAlloc, if_pos zero, full, if_true]
      exact ⟨Grown.refl h, fun some_ => absurd rfl some_⟩
    · simp only [addrOrAlloc, if_pos zero, got, if_neg (h.nonzero data)]
      have names : ∀ y, named sb ((taken sb s b).setAddr inum k b) y =
          update (named sb s) (inum, .addr k) b y := by
        intro y
        have before : named sb (taken sb s b) = named sb s := funext (named_taken h data clear)
        have alloc' : Allocated sb (taken sb s b) inum := alloc
        rw [← before]
        refine named_setAddr alloc' ?_ y
        rintro rfl
        constructor
        · intro j
          have zero' : ((taken sb s b).ip inum).addrs indirect = 0 := zero
          simp [slotAddr, zero']
        · intro j _
          simp [FileSystem.entry, taken, loadWord]
      have first : Local inum s (taken sb s b) := ⟨fun _ => rfl, rfl, fun _ _ => rfl, id⟩
      have local_ := first.trans (local_setAddr inum k b)
      refine ⟨Grown.grant h empty data clear rfl names local_, ?_⟩
      intro _
      rw [names, update_self]
  · simp only [addrOrAlloc, if_neg zero]
    exact ⟨Grown.refl h, fun _ => named_eq alloc⟩

/-- No two inodes have the same indirect block. -/
theorem Owned.indirect_inj (h : Owned sb s) (alloc : Allocated sb s inum)
    (some_ : (s.ip inum).addrs indirect ≠ 0) (i : Nat) (live : Allocated sb s i)
    (other : i ≠ inum) : (s.ip i).addrs indirect ≠ (s.ip inum).addrs indirect := by
  intro same
  have mine : named sb s (inum, .addr indirect) = (s.ip inum).addrs indirect := named_eq alloc
  have its : named sb s (i, .addr indirect) = (s.ip i).addrs indirect := named_eq live
  have equal := h.partition.alone (i, .addr indirect) (inum, .addr indirect)
    (its.trans (same.trans mine.symm)) (by rw [its, same]; exact some_)
  exact other (Prod.mk.inj equal).1

/-- The names after entry `j` of the indirect block of an inode was set. -/
theorem named_setEntry {j : Fin 256} (alloc : Allocated sb s inum)
    (some_ : (s.ip inum).addrs indirect ≠ 0)
    (others : ∀ i, Allocated sb s i → i ≠ inum →
      (s.ip i).addrs indirect ≠ (s.ip inum).addrs indirect)
    (ip : ∀ i, t.ip i = s.ip i)
    (block : t.block = update s.block ((s.ip inum).addrs indirect)
      (storeWord (s.block ((s.ip inum).addrs indirect)) (4 * j.val) b)) (x : Nat × Slot) :
    named sb t x = update (named sb s) (inum, .entry j) b x := by
  obtain ⟨i, slot⟩ := x
  have allocs : ∀ i, Allocated sb t i ↔ Allocated sb s i := by simp [Allocated, ip]
  by_cases live : Allocated sb s i
  · rw [named_eq ((allocs i).mpr live)]
    cases slot with
    | addr k =>
      have apart : (i, Slot.addr k) ≠ (inum, Slot.entry j) := by simp
      rw [update_of_ne apart, named_eq live]
      simp [slotAddr, ip]
    | entry j' =>
      by_cases here : i = inum
      · subst here
        simp only [slotAddr, ip, if_neg some_, FileSystem.entry, block, update_self]
        by_cases same : j' = j
        · subst same
          rw [loadWord_storeWord, update_self]
        · have apart : (i, Slot.entry j') ≠ (i, Slot.entry j) := by simp [same]
          have words : 4 * j'.val + 4 ≤ 4 * j.val ∨ 4 * j.val + 4 ≤ 4 * j'.val := by
            have := Fin.val_ne_of_ne same
            omega
          rw [loadWord_storeWord_apart _ _ words, update_of_ne apart, named_eq live]
          simp only [slotAddr, if_neg some_, FileSystem.entry]
      · have apart : (i, Slot.entry j') ≠ (inum, Slot.entry j) := by simp [here]
        have away := others i live here
        rw [update_of_ne apart, named_eq live]
        simp [slotAddr, ip, FileSystem.entry, block, away]
  · have apart : (i, slot) ≠ (inum, Slot.entry j) := by
      intro same
      exact live ((Prod.mk.inj same).1 ▸ alloc)
    rw [update_of_ne apart]
    simp [named, allocs, live]

theorem entryOrAlloc_reached (h : Owned sb s) (alloc : Allocated sb s inum)
    (some_ : (s.ip inum).addrs indirect ≠ 0) (j : Fin 256) :
    Reached sb inum (.entry j) s (entryOrAlloc sb ((s.ip inum).addrs indirect) j s) := by
  have name : named sb s (inum, .entry j) = s.entry ((s.ip inum).addrs indirect) j := by
    rw [named_eq alloc]
    simp only [slotAddr, if_neg some_]
  by_cases zero : s.entry ((s.ip inum).addrs indirect) j = 0
  · have empty := name.trans zero
    rcases balloc_cases h with full | ⟨b, got, data, clear⟩
    · simp only [entryOrAlloc, if_pos zero, full, if_true]
      exact ⟨Grown.refl h, fun some_ => absurd rfl some_⟩
    · simp only [entryOrAlloc, if_pos zero, got, if_neg (h.nonzero data)]
      have alloc' : Allocated sb (taken sb s b) inum := alloc
      have others := h.indirect_inj alloc some_
      have before : named sb (taken sb s b) = named sb s := funext (named_taken h data clear)
      refine ⟨Grown.grant h empty data clear rfl ?_ ⟨fun _ => rfl, rfl, fun _ _ => rfl, id⟩, ?_⟩
      · intro y
        rw [← before]
        apply named_setEntry alloc' some_ others
        · intro i
          rfl
        · rfl
      · intro _
        rw [named_setEntry (j := j) (b := b) alloc' some_ others (fun _ => by rfl) (by rfl)]
        exact update_self ..
  · simp only [entryOrAlloc, if_neg zero]
    exact ⟨Grown.refl h, fun _ => name⟩

/-- `bmap` leaves every name in place, and its result is named by the place for
the block asked for. -/
theorem bmap_reached (h : Owned sb s) (alloc : Allocated sb s inum) {slot : Slot}
    (place : blockSlot bn = some slot) :
    Yields (bmap sb inum bn s) (Reached sb inum slot s) := by
  unfold blockSlot at place
  unfold bmap
  split
  next direct =>
    rw [dif_pos direct] at place
    obtain rfl := Option.some.inj place
    exact yields_ok (addrOrAlloc_reached h alloc _)
  next far =>
    rw [dif_neg far] at place
    split
    next inside =>
      rw [dif_pos inside] at place
      obtain rfl := Option.some.inj place
      have level := addrOrAlloc_reached h alloc indirect
      simp only
      split
      next => exact yields_ok (Reached.mk level.grown fun some_ => absurd rfl some_)
      next some_ =>
        have alloc' := level.grown.allocated.mpr alloc
        have name := level.names some_
        rw [named_eq alloc', slotAddr] at name
        have second := entryOrAlloc_reached level.grown.owned alloc' (name ▸ some_)
          ⟨bn - NDIRECT, inside⟩
        rw [name] at second
        exact yields_ok ⟨level.grown.trans second.grown, second.names⟩
    next past =>
      rw [dif_neg past] at place
      exact nomatch place

/-- Where the block is there already, `bmap` only looks it up. -/
theorem bmap_present (alloc : Allocated sb s inum) {slot : Slot} (place : blockSlot bn = some slot)
    (some_ : named sb s (inum, slot) ≠ 0) :
    bmap sb inum bn s = .ok (named sb s (inum, slot), s) := by
  have looked : ∀ k : Fin 13, (s.ip inum).addrs k ≠ 0 →
      addrOrAlloc sb inum k s = ((s.ip inum).addrs k, s) :=
    fun k some_ => by simp only [addrOrAlloc, if_neg some_]
  rw [named_eq alloc] at some_ ⊢
  unfold blockSlot at place
  unfold bmap
  split
  next direct =>
    rw [dif_pos direct] at place
    obtain rfl := Option.some.inj place
    rw [looked _ some_]
    rfl
  next far =>
    rw [dif_neg far] at place
    split
    next inside =>
      rw [dif_pos inside] at place
      obtain rfl := Option.some.inj place
      simp only [slotAddr] at some_ ⊢
      split at some_
      next => exact absurd rfl some_
      next level =>
        simp only [looked _ level, if_neg level, entryOrAlloc, if_neg some_]
    next past =>
      rw [dif_neg past] at place
      exact nomatch place

theorem blockSlot_some (h : bn < MAXFILE) : ∃ slot, blockSlot bn = some slot := by
  unfold MAXFILE at h
  unfold blockSlot NDIRECT
  split
  · exact ⟨_, rfl⟩
  · rw [dif_pos (by omega)]
    exact ⟨_, rfl⟩

/-- A block of a file is not kept where the indirect block is. -/
theorem blockSlot_ne_indirect {slot : Slot} (h : blockSlot bn = some slot) :
    slot ≠ .addr indirect := by
  rintro rfl
  unfold blockSlot at h
  split at h
  next direct =>
    have same := congrArg Fin.val (Slot.addr.inj (Option.some.inj h))
    simp [indirect] at same
    omega
  · split at h <;> simp at h

/-- The state after the data of a block was changed. -/
def wrote (s : FileSystem) (b : BlockNo) (m : Memory) (logged : List BlockNo) : FileSystem :=
  { s with block := update s.block b m, logged := logged }

/-- Data written to a block of a file changes no name. -/
theorem named_wrote (h : Owned sb s) {slot : Slot} (place : blockSlot bn = some slot)
    (some_ : b ≠ 0) (name : named sb s (inum, slot) = b) (m : Memory) (logged : List BlockNo)
    (x : Nat × Slot) : named sb (wrote s b m logged) x = named sb s x := by
  refine named_congr (fun i => ?_) (fun i => ?_) ?_ x
  · rfl
  · rfl
  · intro i j live level
    have apart : (s.ip i).addrs indirect ≠ b := by
      intro same
      have its : named sb s (i, .addr indirect) = b := (named_eq live).trans same
      have equal := h.partition.alone (inum, slot) (i, .addr indirect)
        (name.trans its.symm) (name ▸ some_)
      exact blockSlot_ne_indirect place (Prod.mk.inj equal).2
    simp [FileSystem.entry, wrote, apart]

theorem grown_wrote (h : Owned sb s) {slot : Slot} (place : blockSlot bn = some slot)
    (some_ : b ≠ 0) (name : named sb s (inum, slot) = b) (m : Memory) (logged : List BlockNo) :
    Grown sb inum s (wrote s b m logged) where
  owned := by
    have names := named_wrote h place some_ name m logged
    exact ⟨h.partition.congr names fun _ _ => Iff.rfl, h.reserved, h.boot⟩
  names := fun x _ => named_wrote h place some_ name m logged x
  local_ := ⟨fun _ => rfl, rfl, fun _ _ => rfl, id⟩

end BlockOwnership
