import Mathlib.Algebra.BigOperators.Group.Finset.Piecewise
import Mathlib.Data.List.Count
import Xv6.BufferCache
import Xv6.Lib.LockLedger
import Xv6.Lib.Tallies

/-!
# One copy of each block

The reference count of a buffer is the number of uses of it and of pins on it,
so a buffer that can be recycled is one that nobody relies on. Hence all uses
of a block at one time are uses of one buffer, and its sleep lock says which
process, if any, has the contents to itself.
-/

namespace CacheCoherence
open EventRuns Outcomes LogFormat BufferCache Rings LockLedger Tallies Function

variable {Proc Data : Type} [DecidableEq Proc] {s t : Cache Proc Data} {e : Event Proc Data}
  {p q : Proc} {b c : Fin NBUF} {u : Use}

/-- The use that a process has without holding the lock. -/
def pending : Place → List Use
  | .running | .reading _ => []
  | .locking u | .asleep u | .releasing u => [u]

def uses (w : User) : List Use := pending w.place ++ w.held

def count (b : Fin NBUF) (w : User) : Nat := (uses w).countP fun u => u.buf = b

def references [Fintype Proc] (s : Cache Proc Data) (b : Fin NBUF) : Nat :=
  ∑ p, count b (s.user p) + s.pins b

/-- A `uint` counts the references. -/
def Counted [Fintype Proc] (s : Cache Proc Data) : Prop :=
  ∀ b, (s.buf b).refcnt = BitVec.ofNat 32 (references s b)

def Few [Fintype Proc] (s : Cache Proc Data) : Prop := ∀ b, references s b < 2 ^ 32

@[simp] theorem count_mk (b : Fin NBUF) (there : Place) (held : List Use) :
    count b ⟨there, held⟩ =
      (pending there).countP (fun u => u.buf = b) + held.countP (fun u => u.buf = b) := by
  simp [count, uses]

theorem count_place {w : User} {there : Place} (here : w.place = there) (b : Fin NBUF) :
    count b w = (pending there).countP (fun u => u.buf = b) +
      w.held.countP (fun u => u.buf = b) := by
  rw [← here, ← count_mk]

theorem pending_wake (there : Place) : pending (there.wake b) = pending there := by
  cases there with
  | asleep u =>
    simp only [Place.wake]
    split <;> rfl
  | _ => rfl

theorem uses_wake (w : User) : uses (w.wake b) = uses w := by
  simp [uses, User.wake, pending_wake]

/-- A counter that changes by as much as the number it counts. -/
theorem counter {x y : BitVec 32} {m n j k : Nat} (was : x = BitVec.ofNat 32 m)
    (total : n + j = m + k) (change : y + BitVec.ofNat 32 j = x + BitVec.ofNat 32 k) :
    y = BitVec.ofNat 32 n := by
  rw [was, ← BitVec.ofNat_add, ← total, BitVec.ofNat_add] at change
  exact (BitVec.add_left_inj _).mp change

theorem counter_up (x : BitVec 32) (k : Nat) :
    x + 1 + BitVec.ofNat 32 k = x + BitVec.ofNat 32 (k + 1) := by
  rw [BitVec.ofNat_add, BitVec.add_assoc, BitVec.add_comm 1]
  rfl

theorem counter_down (x : BitVec 32) (k : Nat) :
    x - 1 + BitVec.ofNat 32 (k + 1) = x + BitVec.ofNat 32 k := by
  rw [← counter_up, BitVec.sub_add_cancel]

section Counting

variable [Fintype Proc]

/-- One process moves, and each count changes as its uses do. -/
theorem Counted.move (h : Counted s) {w : User} (users : t.user = update s.user p w)
    (pins : t.pins = s.pins)
    (change : ∀ b, (t.buf b).refcnt + BitVec.ofNat 32 (count b (s.user p)) =
      (s.buf b).refcnt + BitVec.ofNat 32 (count b w)) : Counted t := by
  intro b
  have total : references t b + count b (s.user p) = references s b + count b w := by
    have sums := sum_update (count b) s.user p w
    simp only [references, users, pins]
    omega
  exact counter (h b) total (change b)

omit [DecidableEq Proc] in
theorem Counted.repin (h : Counted s) {n : BitVec 32} {k : Nat}
    (change : n + BitVec.ofNat 32 (s.pins b) = (s.buf b).refcnt + BitVec.ofNat 32 k) :
    Counted { s.setRefcnt b n with pins := update s.pins b k } := by
  intro c
  by_cases this : c = b
  · subst this
    refine counter (h c) ?_ (by simpa [Cache.setRefcnt, Cache.setBuf] using change)
    simp only [references, Cache.setRefcnt, Cache.setBuf, update_self]
    omega
  · simpa [references, Cache.setRefcnt, Cache.setBuf, this] using h c

/-- A move that leaves the uses of the process and every count as they are. -/
theorem Counted.stay (h : Counted s) {w : User} (users : t.user = update s.user p w)
    (pins : t.pins = s.pins) (same : ∀ b, (t.buf b).refcnt = (s.buf b).refcnt)
    (as_many : ∀ b, count b w = count b (s.user p)) : Counted t :=
  h.move users pins fun b => by rw [same, as_many]

omit [DecidableEq Proc] in
/-- An unreferenced buffer has no user and no pin. -/
theorem Counted.unreferenced (h : Counted s) (few : Few s) (free : (s.buf b).refcnt = 0) :
    (∀ p, ∀ u ∈ uses (s.user p), u.buf ≠ b) ∧ s.pins b = 0 := by
  have none_ : references s b = 0 := by
    have counted := congrArg BitVec.toNat ((h b).symm.trans free)
    have few := few b
    simp only [BitVec.toNat_ofNat, Nat.mod_eq_of_lt few] at counted
    exact counted
  have sum : ∑ p, count b (s.user p) = 0 := by
    unfold references at none_
    omega
  refine ⟨fun p u mem same => ?_, by unfold references at none_; omega⟩
  have mine := le_sum (count b) s.user p
  have counted : 0 < count b (s.user p) := List.countP_pos_iff.mpr ⟨u, mem, by simpa using same⟩
  omega

omit [DecidableEq Proc] in
theorem Counted.wake (h : Counted s) (b : Fin NBUF) :
    Counted { s with user := fun q => (s.user q).wake b } := by
  intro c
  have same (q : Proc) : count c ((s.user q).wake b) = count c (s.user q) := by
    simp only [count, uses_wake]
  simpa only [references, same] using h c

/-- A process takes a new use of a buffer. -/
theorem Counted.takes (h : Counted s) (here : (s.user p).place = .running) {w : Use}
    (users : t.user = update s.user p { s.user p with place := .locking w })
    (pins : t.pins = s.pins) (one_more : (t.buf w.buf).refcnt = (s.buf w.buf).refcnt + 1)
    (others : ∀ c, c ≠ w.buf → (t.buf c).refcnt = (s.buf c).refcnt) : Counted t := by
  refine h.move users pins fun c => ?_
  have before := count_place here c
  by_cases this : w.buf = c
  · subst this
    rw [one_more, before, count_mk]
    simp [pending, BitVec.ofNat_add, BitVec.add_assoc]
  · rw [others c (Ne.symm this), before, count_mk]
    simp [pending, this]

theorem counted_step (h : Counted s) (moves : Moves s e t) (proper : Proper s e) :
    Counted t := by
  cases moves with
  | hits p dev blockno b here hit =>
    exact h.takes here rfl rfl (by simp [Cache.goTo, Cache.setUser, Cache.setRefcnt, Cache.setBuf])
      fun c other => by simp [Cache.goTo, Cache.setUser, Cache.setRefcnt, Cache.setBuf, other]
  | recycles p dev blockno b here miss free =>
    exact h.takes here rfl rfl (by simp [Cache.goTo, Cache.setUser, recycle, Cache.setBuf, free])
      fun c other => by simp [Cache.goTo, Cache.setUser, recycle, Cache.setBuf, other]
  | waits p u here =>
    exact h.stay rfl rfl (fun _ => rfl) fun c => by rw [count_place here, count_mk]; rfl
  | locks p u here free =>
    refine h.stay rfl rfl (setBuf_keeps Buf.refcnt rfl) fun c => ?_
    rw [count_place here, count_mk]
    simp [pending, List.countP_cons, add_comm]
  | reads p u here =>
    rw [fill_eq]
    refine h.stay rfl rfl (setBuf_keeps Buf.refcnt rfl) fun c => ?_
    rw [count_place here, count_mk]
    rfl
  | changes p u data here =>
    intro c
    rw [setBuf_keeps Buf.refcnt (by rfl)]
    exact h c
  | writes p u here => exact h
  | releases p u here =>
    refine (h.wake u.buf).stay rfl rfl (setBuf_keeps Buf.refcnt rfl) fun c => ?_
    have kept : (s.user p).held.Perm (u :: (s.user p).held.erase u) :=
      List.perm_cons_erase proper
    have woken : count c ((s.user p).wake u.buf) = count c (s.user p) := by
      simp only [count, uses_wake]
    rw [woken, count_place here, kept.countP_eq, count_mk, List.countP_cons]
    simp [pending, add_comm, Cache.setLock, Cache.setBuf]
  | drops p u here =>
    rw [dropRef_eq]
    refine h.move rfl rfl fun c => ?_
    rw [count_place here, count_mk]
    by_cases this : u.buf = c
    · subst this
      have one : (pending (.releasing u)).countP (fun w => w.buf = u.buf) = 1 := by simp [pending]
      rw [one, Nat.add_comm 1]
      simpa [pending, Cache.goTo, Cache.setUser, Cache.setRefcnt, setBuf_at] using
        counter_down (s.buf u.buf).refcnt ((s.user p).held.countP fun w => w.buf = u.buf)
    · simp [pending, this, Cache.goTo, Cache.setUser, Cache.setRefcnt, Cache.setBuf, Ne.symm this]
  | pins p b => exact h.repin (counter_up _ _)
  | unpins p b =>
    obtain ⟨k, pinned⟩ := Nat.exists_eq_succ_of_ne_zero proper
    refine h.repin ?_
    rw [pinned]
    exact counter_down _ _
  | killed p u here =>
    exact h.stay rfl rfl (fun _ => rfl) fun c => by rw [count_place here, count_mk]; rfl
  | nothing p => exact h

end Counting

/-- The buffer of a use is for the block that was asked for. -/
def Stands (s : Cache Proc Data) (u : Use) : Prop :=
  u.dev ≠ 0 ∧ (s.buf u.buf).dev = u.dev ∧ (s.buf u.buf).blockno = u.blockno

structure Standing (s : Cache Proc Data) : Prop where
  used : ∀ p, ∀ u ∈ uses (s.user p), Stands s u
  pinned : ∀ b, s.pins b ≠ 0 → (s.buf b).dev ≠ 0
  apart : ∀ b c, (s.buf b).dev ≠ 0 → (s.buf b).dev = (s.buf c).dev →
    (s.buf b).blockno = (s.buf c).blockno → b = c

/-- No buffer is recycled, and one process moves. -/
theorem Standing.move (h : Standing s) (dev : ∀ c, (t.buf c).dev = (s.buf c).dev)
    (blockno : ∀ c, (t.buf c).blockno = (s.buf c).blockno) {w : User}
    (users : t.user = update s.user p w) (pins : t.pins = s.pins)
    (mine : ∀ u ∈ uses w, Stands s u) : Standing t := by
  have still {u : Use} (stands : Stands s u) : Stands t u := by
    unfold Stands
    rwa [dev, blockno]
  refine ⟨?_, fun b pinned => ?_, fun b c => ?_⟩
  · rw [users, forall_update_iff _ fun _ w => ∀ u ∈ uses w, Stands t u]
    exact ⟨fun u mem => still (mine u mem), fun q _ u mem => still (h.used q u mem)⟩
  · rw [pins] at pinned
    exact dev b ▸ h.pinned b pinned
  · rw [dev, dev, blockno, blockno]
    exact h.apart b c

/-- The uses that stay are those that the process has. -/
theorem Standing.stay (h : Standing s) (dev : ∀ c, (t.buf c).dev = (s.buf c).dev)
    (blockno : ∀ c, (t.buf c).blockno = (s.buf c).blockno) {w : User}
    (users : t.user = update s.user p w) (pins : t.pins = s.pins)
    (fewer : ∀ u ∈ uses w, u ∈ uses (s.user p)) : Standing t :=
  h.move dev blockno users pins fun u mem => h.used p u (fewer u mem)

omit [DecidableEq Proc] in
theorem Standing.wake (h : Standing s) (b : Fin NBUF) :
    Standing { s with user := fun q => (s.user q).wake b } := by
  refine ⟨fun q u mem => ?_, h.pinned, h.apart⟩
  rw [uses_wake] at mem
  exact h.used q u mem

omit [DecidableEq Proc] in
theorem Standing.repin (h : Standing s) {n : BitVec 32} {k : Nat}
    (live : k ≠ 0 → (s.buf b).dev ≠ 0) :
    Standing { s.setRefcnt b n with pins := update s.pins b k } := by
  have dev (c : Fin NBUF) : ((s.setRefcnt b n).buf c).dev = (s.buf c).dev :=
    setBuf_keeps Buf.dev (by rfl) c
  have blockno (c : Fin NBUF) : ((s.setRefcnt b n).buf c).blockno = (s.buf c).blockno :=
    setBuf_keeps Buf.blockno (by rfl) c
  refine ⟨fun p u mem => ?_, fun c pinned => ?_, fun c d => ?_⟩
  · obtain ⟨live, same, number⟩ := h.used p u mem
    exact ⟨live, (dev u.buf).trans same, (blockno u.buf).trans number⟩
  · refine (dev c).symm ▸ ?_
    by_cases this : c = b
    · subst this
      exact live (by simpa using pinned)
    · exact h.pinned c (by simpa [this] using pinned)
  · have kept := h.apart c d
    rwa [← dev c, ← dev d, ← blockno c, ← blockno d] at kept

theorem mem_uses {w : User} {there : Place} (here : w.place = there) :
    u ∈ uses w ↔ u ∈ pending there ∨ u ∈ w.held := by
  simp [uses, here]

/-- A buffer that nobody uses may stand for a block that no buffer stands for. -/
theorem Standing.recycle (h : Standing s) {dev : BitVec 32} {blockno : BlockNo}
    (here : (s.user p).place = .running) (live : dev ≠ 0)
    (miss : ∀ c, caches s dev blockno c = false)
    (unused : (∀ p, ∀ u ∈ uses (s.user p), u.buf ≠ b) ∧ s.pins b = 0) :
    Standing ((recycle s b dev blockno).goTo p (.locking ⟨b, dev, blockno⟩)) := by
  obtain ⟨nobody, unpinned⟩ := unused
  set new : Buf Proc Data :=
    { s.buf b with dev := dev, blockno := blockno, valid := false, refcnt := 1 } with hnew
  have here_ : (s.setBuf b new).buf b = new := setBuf_at b new
  have there {c : Fin NBUF} (other : c ≠ b) : (s.setBuf b new).buf c = s.buf c :=
    setBuf_of_ne new other
  have elsewhere {c : Fin NBUF} : ¬ ((s.buf c).dev = dev ∧ (s.buf c).blockno = blockno) := by
    simpa [caches] using miss c
  have still (q : Proc) (u : Use) (mem : u ∈ uses (s.user q)) : Stands (s.setBuf b new) u := by
    have stands := h.used q u mem
    unfold Stands at stands ⊢
    rwa [there (nobody q u mem)]
  have used : ∀ q, ∀ u ∈ uses (update s.user p
      { s.user p with place := .locking ⟨b, dev, blockno⟩ } q), Stands (s.setBuf b new) u := by
    rw [forall_update_iff _ fun _ w => ∀ u ∈ uses w, Stands (s.setBuf b new) u]
    refine ⟨fun u mem => ?_, fun q _ u mem => still q u mem⟩
    rcases (mem_uses rfl).mp mem with mem | held
    · obtain rfl := List.mem_singleton.mp mem
      exact ⟨live, by rw [here_, hnew], by rw [here_, hnew]⟩
    · exact still p u ((mem_uses here).mpr (Or.inr held))
  refine ⟨used, fun c pinned => ?_, fun c d some_ same number => ?_⟩
  · have other : c ≠ b := fun this => pinned (this ▸ unpinned)
    exact (there other).symm ▸ h.pinned c pinned
  · change ((s.setBuf b new).buf c).dev ≠ 0 at some_
    change ((s.setBuf b new).buf c).dev = ((s.setBuf b new).buf d).dev at same
    change ((s.setBuf b new).buf c).blockno = ((s.setBuf b new).buf d).blockno at number
    by_cases hc : c = b <;> by_cases hd : d = b
    · exact hc.trans hd.symm
    · rw [hc, here_, there hd] at same number
      exact absurd ⟨same.symm, number.symm⟩ elsewhere
    · rw [hd, here_, there hc] at same number
      exact absurd ⟨same, number⟩ elsewhere
    · rw [there hc] at some_ same number
      rw [there hd] at same number
      exact h.apart c d some_ same number

theorem standing_step [Fintype Proc] (h : Standing s) (counted : Counted s) (few : Few s)
    (moves : Moves s e t) (proper : Proper s e) : Standing t := by
  cases moves with
  | hits p dev blockno b here hit =>
    refine h.move (setBuf_keeps Buf.dev rfl) (setBuf_keeps Buf.blockno rfl) rfl rfl fun u mem => ?_
    rcases (mem_uses rfl).mp mem with mem | held
    · obtain rfl := List.mem_singleton.mp mem
      exact ⟨proper, by simpa [caches] using hit⟩
    · exact h.used p u ((mem_uses here).mpr (Or.inr held))
  | recycles p dev blockno b here miss free =>
    exact h.recycle here proper miss (counted.unreferenced few free)
  | waits p u here =>
    refine h.stay (fun _ => rfl) (fun _ => rfl) rfl rfl fun v mem => ?_
    exact (mem_uses here).mpr ((mem_uses rfl).mp mem)
  | locks p u here free =>
    refine h.stay (setBuf_keeps Buf.dev rfl) (setBuf_keeps Buf.blockno rfl) rfl rfl fun v mem => ?_
    exact (mem_uses here).mpr (by simpa [uses, pending] using mem)
  | reads p u here =>
    rw [fill_eq]
    refine h.stay (setBuf_keeps Buf.dev rfl) (setBuf_keeps Buf.blockno rfl) rfl rfl fun v mem => ?_
    exact (mem_uses here).mpr ((mem_uses rfl).mp mem)
  | changes p u data here =>
    exact h.stay (p := p) (setBuf_keeps Buf.dev rfl) (setBuf_keeps Buf.blockno rfl)
      (update_eq_self p s.user).symm rfl fun v mem => mem
  | writes p u here => exact ⟨h.used, h.pinned, h.apart⟩
  | releases p u here =>
    refine (h.wake u.buf).stay (setBuf_keeps Buf.dev rfl) (setBuf_keeps Buf.blockno rfl) rfl rfl
      fun v mem => ?_
    rw [uses_wake]
    refine (mem_uses here).mpr (Or.inr ?_)
    rcases (mem_uses rfl).mp mem with mem | held
    · obtain rfl := List.mem_singleton.mp mem
      exact proper
    · exact List.mem_of_mem_erase held
  | drops p u here =>
    rw [dropRef_eq]
    refine h.stay (setBuf_keeps Buf.dev rfl) (setBuf_keeps Buf.blockno rfl) rfl rfl fun v mem => ?_
    exact (mem_uses here).mpr (Or.inr (by simpa [uses, pending, Cache.setRefcnt] using mem))
  | pins p b => exact h.repin fun _ => proper
  | unpins p b => exact h.repin fun _ => h.pinned b proper
  | killed p u here =>
    refine h.stay (fun _ => rfl) (fun _ => rfl) rfl rfl fun v mem => ?_
    exact (mem_uses here).mpr ((mem_uses rfl).mp mem)
  | nothing p => exact h

def holder (lock : SleepLock Proc) : Option Proc := if lock.locked then lock.pid else none

def heldBufs (w : User) : List (Fin NBUF) := w.held.map Use.buf

/-- The sleep locks and the buffers that the processes hold agree. -/
def Locked (s : Cache Proc Data) : Prop :=
  Ledger (fun b => holder (s.buf b).lock) (fun p => (heldBufs (s.user p)).length)
    fun p => heldBufs (s.user p)

omit [DecidableEq Proc] in
theorem Locked.of {lock : Fin NBUF → Option Proc} {number : Proc → Nat}
    {held : Proc → List (Fin NBUF)} (ledger : Ledger lock number held)
    (locks : ∀ b, holder (t.buf b).lock = lock b) (helds : ∀ q, heldBufs (t.user q) = held q) :
    Locked t := by
  refine ⟨fun b q => ?_, fun q => ?_, fun _ => rfl⟩
  · rw [locks, helds]
    exact ledger.owner b q
  · rw [helds]
    exact ledger.once q

omit [DecidableEq Proc] in
theorem Locked.frame (h : Locked s) (lock : ∀ c, (t.buf c).lock = (s.buf c).lock)
    (held : ∀ q, (t.user q).held = (s.user q).held) : Locked t :=
  .of h (fun b => by rw [lock]) fun q => by rw [heldBufs, held, ← heldBufs]

/-- A move that leaves what the process holds. -/
theorem Locked.stay (h : Locked s) (lock : ∀ c, (t.buf c).lock = (s.buf c).lock) {w : User}
    (users : t.user = update s.user p w) (same : w.held = (s.user p).held) : Locked t := by
  refine h.frame lock ?_
  rw [users]
  exact (forall_update_iff s.user fun q w => w.held = (s.user q).held).mpr ⟨same, fun _ _ => rfl⟩

omit [DecidableEq Proc] in
theorem holder_setLock (lock : SleepLock Proc) (c : Fin NBUF) :
    holder ((s.setLock b lock).buf c).lock =
      update (fun c => holder (s.buf c).lock) b (holder lock) c := by
  by_cases this : c = b
  · subst this
    simp [Cache.setLock, setBuf_at]
  · simp [Cache.setLock, setBuf_of_ne _ this, this]

theorem heldBufs_update (g : Proc → User) (w : User) (q : Proc) :
    heldBufs (update g p w q) = update (fun q => heldBufs (g q)) p (heldBufs w) q := by
  by_cases this : q = p
  · subst this
    simp
  · simp [this]

theorem locked_step (h : Locked s) (moves : Moves s e t) (proper : Proper s e) : Locked t := by
  cases moves with
  | hits p dev blockno b here hit => exact h.stay (setBuf_keeps Buf.lock rfl) rfl rfl
  | recycles p dev blockno b here miss free => exact h.stay (setBuf_keeps Buf.lock rfl) rfl rfl
  | waits p u here => exact h.stay (fun _ => rfl) rfl rfl
  | locks p u here free =>
    have open_ : holder (s.buf u.buf).lock = none := by simp [holder, free]
    have taken := h.acquire (c := p) open_ (List.Perm.refl _)
    exact .of taken (holder_setLock _) (heldBufs_update _ _)
  | reads p u here =>
    rw [fill_eq]
    exact h.stay (setBuf_keeps Buf.lock rfl) rfl rfl
  | changes p u data here => exact h.frame (setBuf_keeps Buf.lock rfl) fun _ => rfl
  | writes p u here => exact h.frame (fun _ => rfl) fun _ => rfl
  | releases p u here =>
    have given : (heldBufs (s.user p)).Perm
        (u.buf :: heldBufs ⟨.running, (s.user p).held.erase u⟩) :=
      (List.perm_cons_erase proper).map Use.buf
    refine .of (h.release given) (holder_setLock _) fun q => ?_
    exact heldBufs_update _ _ _
  | drops p u here =>
    rw [dropRef_eq]
    exact h.stay (setBuf_keeps Buf.lock rfl) rfl rfl
  | pins p b => exact h.frame (setBuf_keeps Buf.lock rfl) fun _ => rfl
  | unpins p b => exact h.frame (setBuf_keeps Buf.lock rfl) fun _ => rfl
  | killed p u here => exact h.stay (fun _ => rfl) rfl rfl
  | nothing p => exact h

/-- A process has a buffer locked without its contents only while it reads
them in. -/
def Filled (s : Cache Proc Data) : Prop :=
  ∀ p, ∀ u ∈ (s.user p).held, (s.buf u.buf).valid = true ∨ (s.user p).place = .reading u

/-- Buffers in use stay valid, and one process moves. -/
theorem Filled.move (h : Filled s)
    (valid : ∀ q, ∀ u ∈ (s.user q).held, (s.buf u.buf).valid = true → (t.buf u.buf).valid = true)
    {w : User} (users : t.user = update s.user p w)
    (mine : ∀ u ∈ w.held, (t.buf u.buf).valid = true ∨ w.place = .reading u) : Filled t := by
  unfold Filled
  rw [users, forall_update_iff s.user fun _ w =>
    ∀ u ∈ w.held, (t.buf u.buf).valid = true ∨ w.place = .reading u]
  exact ⟨mine, fun q _ u mem => (h q u mem).imp_left (valid q u mem)⟩

/-- No buffer becomes valid or invalid. -/
theorem Filled.stay (h : Filled s) (valid : ∀ c, (t.buf c).valid = (s.buf c).valid) {w : User}
    (users : t.user = update s.user p w)
    (mine : ∀ u ∈ w.held, (s.buf u.buf).valid = true ∨ w.place = .reading u) : Filled t :=
  h.move (fun _ u _ was => (valid u.buf).trans was) users fun u mem =>
    (mine u mem).imp_left (valid u.buf).trans

omit [DecidableEq Proc] in
theorem Filled.frame (h : Filled s) (valid : ∀ c, (t.buf c).valid = (s.buf c).valid)
    (users : t.user = s.user) : Filled t := by
  intro q u mem
  rw [users] at mem ⊢
  exact (h q u mem).imp_left (valid u.buf).trans

omit [DecidableEq Proc] in
theorem Filled.wake (h : Filled s) (b : Fin NBUF) :
    Filled { s with user := fun q => (s.user q).wake b } := by
  intro q u mem
  refine (h q u mem).imp_right fun reading => ?_
  simp [User.wake, Place.wake, reading]

omit [DecidableEq Proc] in
/-- A process that is not reading has valid buffers only. -/
theorem Filled.valid (h : Filled s) (mem : u ∈ (s.user p).held)
    (elsewhere : (s.user p).place ≠ .reading u) : (s.buf u.buf).valid = true :=
  (h p u mem).resolve_right elsewhere

theorem filled_step [Fintype Proc] (h : Filled s) (counted : Counted s) (few : Few s)
    (moves : Moves s e t) (proper : Proper s e) : Filled t := by
  have idle {p : Proc} {there : Place} (here : (s.user p).place = there)
      (other : ∀ u, there ≠ .reading u) (u : Use) (mem : u ∈ (s.user p).held) :
      (s.buf u.buf).valid = true := h.valid mem (here ▸ other u)
  cases moves with
  | hits p dev blockno b here hit =>
    exact h.stay (setBuf_keeps Buf.valid rfl) rfl fun v mem =>
      Or.inl (idle here (fun _ => nofun) v mem)
  | recycles p dev blockno b here miss free =>
    have nobody := (counted.unreferenced few free).1
    have valid (q : Proc) (u : Use) (mem : u ∈ (s.user q).held)
        (was : (s.buf u.buf).valid = true) :
        ((recycle s b dev blockno).buf u.buf).valid = true := by
      have other : u.buf ≠ b := nobody q u (List.mem_append_right _ mem)
      rwa [recycle, setBuf_of_ne _ other]
    refine h.move valid rfl fun u mem => Or.inl ?_
    exact valid p u mem (idle here (fun _ => nofun) u mem)
  | waits p u here =>
    exact h.stay (fun _ => rfl) rfl fun v mem => Or.inl (idle here (fun _ => nofun) v mem)
  | locks p u here free =>
    refine h.stay (setBuf_keeps Buf.valid rfl) rfl fun v mem => ?_
    rcases List.mem_cons.mp mem with rfl | mem
    · exact Or.inr rfl
    · exact Or.inl (idle here (fun _ => nofun) v mem)
  | reads p u here =>
    obtain ⟨new, filled, now⟩ : ∃ new, fill s u.buf = s.setBuf u.buf new ∧ new.valid = true :=
      ⟨_, fill_eq s u.buf, rfl⟩
    rw [filled]
    have valid (v : Use) (was : (s.buf v.buf).valid = true ∨ v.buf = u.buf) :
        ((s.setBuf u.buf new).buf v.buf).valid = true := by
      by_cases this : v.buf = u.buf
      · rw [this, setBuf_at, now]
      · rw [setBuf_of_ne _ this]
        exact was.resolve_right this
    refine h.move (fun _ v _ was => valid v (Or.inl was)) rfl fun v mem => Or.inl (valid v ?_)
    refine (h p v mem).imp_right fun reading => ?_
    rw [Place.reading.inj (reading.symm.trans here)]
  | changes p u data here => exact h.frame (setBuf_keeps Buf.valid rfl) rfl
  | writes p u here => exact h
  | releases p u here =>
    exact (h.wake u.buf).stay (setBuf_keeps Buf.valid rfl) rfl fun v mem =>
      Or.inl (idle here (fun _ => nofun) v (List.mem_of_mem_erase mem))
  | drops p u here =>
    rw [dropRef_eq]
    exact h.stay (setBuf_keeps Buf.valid rfl) rfl fun v mem =>
      Or.inl (idle here (fun _ => nofun) v mem)
  | pins p b => exact h.frame (setBuf_keeps Buf.valid rfl) rfl
  | unpins p b => exact h.frame (setBuf_keeps Buf.valid rfl) rfl
  | killed p u here =>
    exact h.stay (fun _ => rfl) rfl fun v mem => Or.inl (idle here (fun _ => nofun) v mem)
  | nothing p => exact h

theorem ringed_step (ring : Ringed s) (moves : Moves s e t) : Ringed t := by
  cases moves with
  | reads p u here =>
    rw [fill_eq]
    exact ring
  | drops p u here =>
    rw [dropRef_eq]
    by_cases last : (s.buf u.buf).refcnt - 1 = 0
    · obtain ⟨l, lists, all⟩ := ring
      obtain ⟨before, after, rfl⟩ := List.append_of_mem (all.mem_iff.mpr (List.mem_finRange u.buf))
      rw [List.map_append, List.map_cons] at lists
      refine ⟨u.buf :: (before ++ after), ?_, List.perm_middle.symm.trans all⟩
      rw [List.map_cons, List.map_append]
      simpa only [Cache.goTo, Cache.setUser, if_pos last] using lists.toFront
    · simpa only [Ringed, Cache.goTo, Cache.setUser, if_neg last] using ring
  | _ => exact ring

structure Coherent [Fintype Proc] (s : Cache Proc Data) : Prop where
  ring : Ringed s
  counted : Counted s
  few : Few s
  standing : Standing s
  locked : Locked s
  filled : Filled s

variable [Fintype Proc]

theorem coherent_step (h : Coherent s) (proper : Proper s e) (ok : step s e = .ok t)
    (few : Few t) : Coherent t := by
  have moves := step_moves h.ring ok
  constructor
  · exact ringed_step h.ring moves
  · exact counted_step h.counted moves proper
  · exact few
  · exact standing_step h.standing h.counted h.few moves proper
  · exact locked_step h.locked moves proper
  · exact filled_step h.filled h.counted h.few moves proper

omit [DecidableEq Proc] in
theorem fresh_coherent (links : Links (Option (Fin NBUF))) (data : Data) (disk : BlockNo → Data) :
    Coherent (fresh links data disk : Cache Proc Data) := by
  have no_refs (b : Fin NBUF) : references (fresh links data disk : Cache Proc Data) b = 0 := by
    simp [references, fresh, count, uses, pending]
  constructor
  · refine ⟨(List.finRange NBUF).reverse, ?_, List.reverse_perm _⟩
    have empty : Lists ⟨update links.next none none, update links.prev none none⟩ none
        ([] : List (Option (Fin NBUF))) := lists_nil.mpr (by simp)
    have nodup : (((List.finRange NBUF).map some).reverse ++ [none]).Nodup := by
      simpa [List.nodup_append] using (List.nodup_finRange NBUF).map (Option.some_injective _)
    have ring := empty.pushes nodup
    rw [List.foldl_map, List.append_nil, ← List.map_reverse] at ring
    exact ring
  · intro b
    rw [no_refs]
    rfl
  · intro b
    rw [no_refs]
    decide
  · exact ⟨fun _ _ mem => (List.not_mem_nil mem).elim, fun _ pinned => absurd rfl pinned,
      fun _ _ live => absurd rfl live⟩
  · exact .of LockLedger.empty (fun _ => rfl) fun _ => rfl
  · exact fun _ _ mem => (List.not_mem_nil mem).elim

/-- A step from a coherent cache fails only where a block is asked for and every
buffer is in use. -/
theorem coherent_error (h : Coherent s) (proper : Proper s e) {f : Fault}
    (bad : step s e = .error f) :
    (f = .noBuffers ∧ ∀ b, (s.buf b).refcnt ≠ 0) ∨ f = .disabled := by
  have holding {p : Proc} {u : Use} (mem : u ∈ (s.user p).held) : holdingsleep s p u.buf := by
    have lock := (h.locked.owner u.buf p).mpr (List.mem_map_of_mem mem)
    unfold holder at lock
    split at lock
    next locked => exact ⟨locked, lock⟩
    next => cases lock
  cases e with
  | bread p dev blockno =>
    simp only [step] at bad
    split at bad
    next here =>
      cases got : bget s dev blockno with
      | error g =>
        obtain ⟨rfl, full⟩ := bget_error h.ring got
        simp only [got] at bad
        exact Or.inl ⟨(Except.error.inj bad).symm, full⟩
      | ok found =>
        simp only [got] at bad
        cases bad
    next => exact Or.inr (Except.error.inj bad).symm
  | bwrite p u =>
    simp only [step, if_pos (holding proper)] at bad
    split at bad
    next => cases bad
    next => exact Or.inr (Except.error.inj bad).symm
  | brelse p u =>
    simp only [step, if_pos (holding proper)] at bad
    split at bad
    next => cases bad
    next => exact Or.inr (Except.error.inj bad).symm
  | kill p =>
    simp only [step] at bad
    split at bad <;> cases bad
  | acquire p | read p | change p u data | drop p | bpin p b | bunpin p b =>
    simp only [step] at bad
    split at bad
    next => cases bad
    next => exact Or.inr (Except.error.inj bad).symm

def holds (b : Fin NBUF) (w : User) : Bool := b ∈ heldBufs w

def waits (b : Fin NBUF) (w : User) : Bool := match w.place with
  | .locking u | .asleep u => u.buf = b
  | _ => false

/-- In `brelse`, with the lock given up and the count not yet taken down. -/
def leaves (b : Fin NBUF) (w : User) : Bool := match w.place with
  | .releasing u => u.buf = b
  | _ => false

/-- The number of processes that are in a state. -/
def number (s : Cache Proc Data) (test : User → Bool) : Nat :=
  (Finset.univ.filter fun p => test (s.user p) = true).card

theorem count_eq (w : User) (once : (heldBufs w).Nodup) (b : Fin NBUF) :
    count b w = (holds b w).toNat + (waits b w).toNat + (leaves b w).toNat := by
  have held : w.held.countP (fun u => u.buf = b) = (holds b w).toNat := calc
    _ = (heldBufs w).count b := by
      rw [heldBufs, List.count, List.countP_map]
      rfl
    _ = if b ∈ heldBufs w then 1 else 0 := once.count
    _ = (holds b w).toNat := by by_cases mem : b ∈ heldBufs w <;> simp [holds, mem]
  obtain ⟨place, held_⟩ := w
  rw [count_mk, held, waits, leaves]
  cases place with
  | running => simp [pending]
  | reading u => simp [pending]
  | locking u => by_cases this : u.buf = b <;> simp [pending, this, add_comm]
  | asleep u => by_cases this : u.buf = b <;> simp [pending, this, add_comm]
  | releasing u => by_cases this : u.buf = b <;> simp [pending, this, add_comm]

omit [DecidableEq Proc] in
/-- References are holders, waiters, processes that leave, and pins. -/
theorem references_eq (h : Locked s) (b : Fin NBUF) : references s b =
    number s (holds b) + number s (waits b) + number s (leaves b) + s.pins b := by
  have card (test : User → Bool) : number s test = ∑ p, (test (s.user p)).toNat := by
    rw [number, Finset.card_filter]
    exact Finset.sum_congr rfl fun p _ => by cases test (s.user p) <;> rfl
  simp only [references, card, ← Finset.sum_add_distrib]
  rw [Finset.sum_congr rfl fun p _ => count_eq (s.user p) (h.once p) b]

/-- What the users of the cache rely on. -/
structure Shared (s : Cache Proc Data) : Prop where
  /-- The list from `bcache.head` has each buffer once. -/
  ring : ∃ l : List (Fin NBUF), Lists s.links none (l.map some) ∧ l.Perm (List.finRange NBUF)
  /-- Buffers in use stand for different blocks. -/
  distinct : ∀ b c, (s.buf b).refcnt ≠ 0 → (s.buf c).refcnt ≠ 0 →
    (s.buf b).dev = (s.buf c).dev → (s.buf b).blockno = (s.buf c).blockno → b = c
  /-- A buffer in use is not recycled. -/
  kept : ∀ e t, step s e = .ok t → ∀ b, (s.buf b).refcnt ≠ 0 →
    (t.buf b).dev = (s.buf b).dev ∧ (t.buf b).blockno = (s.buf b).blockno
  /-- The reference count. -/
  refcnt : ∀ b, (s.buf b).refcnt.toNat =
    number s (holds b) + number s (waits b) + number s (leaves b) + s.pins b
  /-- All uses of a block are uses of one buffer, which stands for the block. -/
  one_copy : ∀ p q, ∀ u ∈ uses (s.user p), ∀ v ∈ uses (s.user q),
    u.dev = v.dev → u.blockno = v.blockno → u.buf = v.buf
  copy : ∀ p, ∀ u ∈ uses (s.user p),
    (s.buf u.buf).dev = u.dev ∧ (s.buf u.buf).blockno = u.blockno
  /-- One process at most holds a buffer locked. -/
  one_holder : ∀ p q b, holds b (s.user p) = true → holds b (s.user q) = true → p = q
  lock : ∀ p b, holds b (s.user p) = true ↔ holdingsleep s p b

omit [Fintype Proc] in
theorem kept_step (ring : Ringed s) (ok : step s e = .ok t) (busy : (s.buf b).refcnt ≠ 0) :
    (t.buf b).dev = (s.buf b).dev ∧ (t.buf b).blockno = (s.buf b).blockno := by
  have same {c : Fin NBUF} {new : Buf Proc Data} (dev : new.dev = (s.buf c).dev)
      (blockno : new.blockno = (s.buf c).blockno) : ((s.setBuf c new).buf b).dev = (s.buf b).dev ∧
        ((s.setBuf c new).buf b).blockno = (s.buf b).blockno :=
    ⟨setBuf_keeps Buf.dev dev b, setBuf_keeps Buf.blockno blockno b⟩
  cases step_moves ring ok with
  | recycles p dev blockno c here miss free =>
    have other : b ≠ c := fun this => busy (this ▸ free)
    have kept : (recycle s c dev blockno).buf b = s.buf b := setBuf_of_ne _ other
    exact ⟨congrArg Buf.dev kept, congrArg Buf.blockno kept⟩
  | reads p u here =>
    rw [fill_eq]
    exact same rfl rfl
  | drops p u here =>
    rw [dropRef_eq]
    exact same rfl rfl
  | waits | writes | killed | nothing => exact ⟨rfl, rfl⟩
  | _ => exact same rfl rfl

omit [Fintype Proc] in
/-- Only a change of its data reaches a valid buffer in use. -/
theorem contents_step (ring : Ringed s) (ok : step s e = .ok t) (busy : (s.buf b).refcnt ≠ 0)
    (full : (s.buf b).valid = true) (quiet : ∀ p u data, e = .change p u data → u.buf ≠ b) :
    (t.buf b).valid = true ∧ (t.buf b).data = (s.buf b).data := by
  have same {c : Fin NBUF} {new : Buf Proc Data} (valid : new.valid = (s.buf c).valid)
      (data : new.data = (s.buf c).data) : ((s.setBuf c new).buf b).valid = true ∧
        ((s.setBuf c new).buf b).data = (s.buf b).data :=
    ⟨(setBuf_keeps Buf.valid valid b).trans full, setBuf_keeps Buf.data data b⟩
  cases step_moves ring ok with
  | recycles p dev blockno c here miss free =>
    have other : b ≠ c := fun this => busy (this ▸ free)
    have kept : (recycle s c dev blockno).buf b = s.buf b := setBuf_of_ne _ other
    exact ⟨(congrArg Buf.valid kept).trans full, congrArg Buf.data kept⟩
  | reads p u here =>
    by_cases this : b = u.buf
    · subst this
      have still : fill s u.buf = s := if_pos full
      rw [still]
      exact ⟨full, rfl⟩
    · rw [fill_eq]
      have kept := setBuf_of_ne (s := s) { s.buf u.buf with
        data := if (s.buf u.buf).valid then (s.buf u.buf).data else s.disk (s.buf u.buf).blockno
        valid := true } this
      exact ⟨(congrArg Buf.valid kept).trans full, congrArg Buf.data kept⟩
  | changes p u data here =>
    have kept := setBuf_of_ne (s := s) { s.buf u.buf with data := data }
      (quiet p u data rfl).symm
    exact ⟨(congrArg Buf.valid kept).trans full, congrArg Buf.data kept⟩
  | drops p u here =>
    rw [dropRef_eq]
    exact same rfl rfl
  | waits | writes | killed | nothing => exact ⟨full, rfl⟩
  | _ => exact same rfl rfl

omit [Fintype Proc] in
theorem pins_step (ring : Ringed s) (ok : step s e = .ok t) (pin : ∀ p c, e ≠ .bpin p c)
    (unpin : ∀ p c, e ≠ .bunpin p c) : t.pins = s.pins := by
  cases step_moves ring ok with
  | pins p c => exact absurd rfl (pin p c)
  | unpins p c => exact absurd rfl (unpin p c)
  | reads p u here =>
    rw [fill_eq]
    rfl
  | drops p u here =>
    rw [dropRef_eq]
    rfl
  | _ => rfl

omit [DecidableEq Proc] in
theorem Coherent.holds_iff (h : Coherent s) : holds b (s.user p) = true ↔ holdingsleep s p b := by
  rw [holds, decide_eq_true_iff, ← h.locked.owner, holder, holdingsleep]
  split <;> simp_all

theorem Coherent.shared (h : Coherent s) : Shared s := by
  have live {b : Fin NBUF} (busy : (s.buf b).refcnt ≠ 0) : (s.buf b).dev ≠ 0 := by
    intro free
    apply busy
    have unused (p : Proc) : count b (s.user p) = 0 := by
      refine List.countP_eq_zero.mpr fun u mem => ?_
      obtain ⟨some_, dev, -⟩ := h.standing.used p u mem
      simp only [decide_eq_true_eq]
      rintro rfl
      exact some_ (dev.symm.trans free)
    have unpinned : s.pins b = 0 := by_contra fun pinned => h.standing.pinned b pinned free
    rw [h.counted b, references, Finset.sum_eq_zero fun p _ => unused p, unpinned]
    rfl
  constructor
  case ring => exact h.ring
  case distinct => exact fun b c busy _ => h.standing.apart b c (live busy)
  case kept => exact fun e t ok b busy => kept_step h.ring ok busy
  case refcnt =>
    intro b
    rw [h.counted b, BitVec.toNat_ofNat, Nat.mod_eq_of_lt (h.few b)]
    exact references_eq h.locked b
  case one_copy =>
    intro p q u hu v hv dev blockno
    obtain ⟨some_, dev_u, blockno_u⟩ := h.standing.used p u hu
    obtain ⟨-, dev_v, blockno_v⟩ := h.standing.used q v hv
    refine h.standing.apart _ _ (dev_u ▸ some_) ?_ ?_
    · rw [dev_u, dev_v, dev]
    · rw [blockno_u, blockno_v, blockno]
  case copy => exact fun p u mem => (h.standing.used p u mem).2
  case one_holder =>
    intro p q b hp hq
    exact h.locked.exclusive (by simpa [holds] using hp) (by simpa [holds] using hq)
  case lock => exact fun p b => h.holds_iff

/-- The condition on a step: the calls are proper, and no buffer comes to have
`2 ^ 32` references. -/
def Careful (s : Cache Proc Data) (e : Event Proc Data) : Prop :=
  Proper s e ∧ ∀ t, step s e = .ok t → Few t

instance decidableFew (s : Cache Proc Data) : Decidable (Few s) := by
  unfold Few
  infer_instance

instance decidableCareful (s : Cache Proc Data) (e : Event Proc Data) :
    Decidable (Careful s e) :=
  match h : step s e with
  | .ok t => decidable_of_iff (Proper s e ∧ Few t) (by simp [Careful, h])
  | .error _ => decidable_of_iff (Proper s e) (by simp [Careful, h])

theorem coherent_run (start : Coherent s) {es : List (Event Proc Data)}
    (meets : Meets step Careful s es) (ok : run step s es = .ok t) : Coherent t :=
  run_invariant (fun _ _ _ h careful ok => coherent_step h careful.1 ok (careful.2 _ ok)) start
    meets ok

/-- In every interleaving the users of a block share one copy, which one of them
at most holds locked, and a buffer counts its holders, its waiters, the
processes about to take themselves off the count in `brelse`, and its pins. The
only panic is the one for a cache whose buffers are all in use. -/
theorem users_share (links : Links (Option (Fin NBUF))) (data : Data) (disk : BlockNo → Data)
    (es : List (Event Proc Data)) (meets : Meets step Careful (fresh links data disk) es) :
    (∀ t, run step (fresh links data disk) es = .ok t → Shared t) ∧
      ∀ f, run step (fresh links data disk) es = .error f → f = .noBuffers ∨ f = .disabled := by
  have start : Coherent (fresh links data disk : Cache Proc Data) :=
    fresh_coherent links data disk
  refine ⟨fun t ok => (coherent_run start meets ok).shared, fun f bad => ?_⟩
  by_contra other
  rw [not_or] at other
  refine run_ne_error_iff.mpr (meets.imp (I := Coherent) ?_ ?_ start) bad
  · exact fun s e t h careful ok => coherent_step h careful.1 ok (careful.2 t ok)
  · intro s e h careful bad
    exact (coherent_error h careful.1 bad).elim (fun full => other.1 full.1) other.2

/-- Three processes want one block: the first has given up the lock and not yet the
reference, the second has the block, the third sleeps, and there is a pin. -/
def contends (p q r : Fin 3) (b : Fin NBUF) : List (Event (Fin 3) Nat) :=
  [.bread p 1 7, .acquire p, .bread q 1 7, .acquire q, .read p, .bread r 1 7, .change p ⟨b, 1, 7⟩ 5,
    .bwrite p ⟨b, 1, 7⟩, .bpin p b, .brelse p ⟨b, 1, 7⟩, .acquire q, .acquire r]

theorem users_share_contended :
    ∃ t, run step (fresh ⟨fun _ => none, fun _ => none⟩ 0 BitVec.toNat) (contends 0 1 2 0) = .ok t ∧
      (holds 0 (t.user 1) ∧ waits 0 (t.user 2) ∧ leaves 0 (t.user 0) ∧
        (t.buf 0).refcnt = 4 ∧ (t.buf 0).data = 5) ∧ Shared t := by
  have seen : Yields (run step (fresh ⟨fun _ => none, fun _ => none⟩ 0 BitVec.toNat) (contends 0 1 2 0))
      fun t => holds 0 (t.user 1) ∧ waits 0 (t.user 2) ∧ leaves 0 (t.user 0) ∧
        (t.buf 0).refcnt = 4 ∧ (t.buf 0).data = 5 := by
    decide +kernel
  obtain ⟨t, ok, facts⟩ := seen
  obtain ⟨shared, -⟩ :=
    users_share ⟨fun _ => none, fun _ => none⟩ 0 BitVec.toNat (contends 0 1 2 0) (by decide +kernel)
  exact ⟨t, ok, facts, shared t ok⟩

/-- A cache with one process, on a disk of empty blocks. -/
def oneUser : Cache Unit Unit := fresh ⟨fun _ => none, fun _ => none⟩ () fun _ => ()

/-- The process reads a block. -/
def readsBlock : List (Event Unit Unit) := [.bread () 1 7, .acquire (), .read ()]

omit [Fintype Proc] in
/-- Pins alone count, modulo `2 ^ 32`. -/
theorem run_bpin (n : Nat) (here : (s.user p).place = .running) (live : (s.buf b).dev ≠ 0) :
    Meets step Proper s (List.replicate n (.bpin p b)) ∧
      Yields (run step s (List.replicate n (.bpin p b))) fun t =>
        (t.buf b).refcnt = (s.buf b).refcnt + BitVec.ofNat 32 n ∧ t.pins b = s.pins b + n := by
  induction n generalizing s with
  | zero => exact ⟨trivial, yields_ok ⟨by simp, rfl⟩⟩
  | succ n ih =>
    rw [List.replicate_succ]
    set r : Cache Proc Data :=
      { s.setRefcnt b ((s.buf b).refcnt + 1) with pins := update s.pins b (s.pins b + 1) } with hr
    have first : step s (.bpin p b) = .ok r := by simp [step, here, hr]
    have refcnt : (r.buf b).refcnt = (s.buf b).refcnt + 1 := by
      simp [hr, Cache.setRefcnt, setBuf_at]
    have dev : (r.buf b).dev ≠ 0 := by simpa [hr, Cache.setRefcnt, setBuf_at] using live
    obtain ⟨meets, t, ok, counted, pinned⟩ := ih (s := r) here dev
    refine ⟨⟨live, fun u went => ?_⟩, t, run_cons_ok.mpr ⟨r, first, ok⟩, ?_, ?_⟩
    · obtain rfl := Except.ok.inj (first.symm.trans went)
      exact meets
    · rw [counted, refcnt, counter_up]
    · rw [pinned, hr]
      simp [add_assoc, add_comm]

/-- Between the two halves of `brelse` the count is above the holders, the
waiters and the pins, and `2 ^ 32` pins do not count at all. -/
theorem refcnt_misses :
    (Meets step Proper oneUser (readsBlock ++ [.brelse () ⟨0, 1, 7⟩]) ∧
      Yields (run step oneUser (readsBlock ++ [.brelse () ⟨0, 1, 7⟩])) fun t =>
        (t.buf 0).refcnt.toNat ≠ number t (holds 0) + number t (waits 0) + t.pins 0) ∧
    Meets step Proper oneUser (readsBlock ++ List.replicate (2 ^ 32) (.bpin () 0)) ∧
      Yields (run step oneUser (readsBlock ++ List.replicate (2 ^ 32) (.bpin () 0))) fun t =>
        (t.buf 0).refcnt.toNat ≠ number t (holds 0) + number t (waits 0) + t.pins 0 := by
  obtain ⟨r, reads, here, live, one, unpinned⟩ : Yields (run step oneUser readsBlock) fun r =>
      (r.user ()).place = .running ∧ (r.buf 0).dev ≠ 0 ∧ (r.buf 0).refcnt = 1 ∧ r.pins 0 = 0 := by
    decide +kernel
  obtain ⟨proper, t, pins, refcnt, pinned⟩ := run_bpin (p := ()) (2 ^ 32) here live
  refine ⟨by decide +kernel, meets_append.mpr ⟨by decide +kernel, fun u went => ?_⟩, t, ?_, ?_⟩
  · obtain rfl := Except.ok.inj (reads.symm.trans went)
    exact proper
  · exact run_append_ok.mpr ⟨r, reads, pins⟩
  · have wrapped : (t.buf 0).refcnt.toNat = 1 := by
      rw [refcnt, one]
      decide
    omega

end CacheCoherence
