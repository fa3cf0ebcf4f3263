import Xv6.FileBytes
import Xv6.HoleFreeReads
import Xv6.Lib.ByteArrays

/-!
# readi and writei implement a byte array

The content of a file is the list of its bytes up to the size. `writei` splices
what it wrote into the list, and `readi` returns a slice of it, also after other
calls that leave the file alone.
-/

namespace FileContents
open ByteMemory ByteArrays FileBlocks BlockOwnership BlockCalls HoleFreeReads FileBytes Function
open EventRuns Outcomes

variable {sb : Superblock} {s t u : FileSystem} {inum i : Nat}

/-- The bytes of a file up to its size. -/
def content (sb : Superblock) (s : FileSystem) (i : Nat) : List Byte :=
  (List.range (s.ip i).size.toNat).map (byteAt sb s i)

/-- The request begins behind the end of the file, wraps around, or goes beyond the
largest file. -/
def Rejected (s : FileSystem) (inum : Nat) (off n : BitVec 32) : Prop :=
  (s.ip inum).size < off ∨ off + n < off ∨ MAXFILE * BSIZE < (off + n).toNat

instance (s : FileSystem) (inum : Nat) (off n : BitVec 32) : Decidable (Rejected s inum off n) :=
  inferInstanceAs (Decidable (_ ∨ _ ∨ _))

theorem same_named (block : t.block = s.block) (ip : t.ip i = s.ip i) (slot : Slot) :
    named sb t (i, slot) = named sb s (i, slot) := by
  cases slot <;> simp [named, Allocated, slotAddr, FileSystem.entry, ip, block]

theorem same_bytes (block : t.block = s.block) (ip : t.ip i = s.ip i) (k : Nat) :
    byteAt sb t i k = byteAt sb s i k := by
  unfold byteAt
  split
  · rw [same_named block ip, block]
  · rfl

/-- A call to `writei` that is not rejected wrote `w` bytes, with `extra` more in the buffer
of a chunk whose copy failed. -/
structure WriteiRun (sb : Superblock) (inum : Nat) (src : Nat → Byte) (fails : Nat → Option Nat)
    (off n : BitVec 32) (s : FileSystem) (r : Int × FileSystem) (w extra : Nat) : Prop where
  result : r.1 = w
  high : w ≤ n.toNat
  size : (r.2.ip inum).size.toNat = max (s.ip inum).size.toNat (off.toNat + w)
  alloc : ∀ i, Allocated sb r.2 i ↔ Allocated sb s i
  type : (r.2.ip inum).type = (s.ip inum).type
  others : ∀ i, i ≠ inum → r.2.ip i = s.ip i
  kept : ∀ i k, Mapped sb s i k →
    (i ≠ inum ∨ k < off.toNat ∨ off.toNat + w + extra ≤ k) →
    byteAt sb r.2 i k = byteAt sb s i k
  new : ∀ k, off.toNat ≤ k → k < off.toNat + w + extra →
    byteAt sb r.2 inum k = src (k - off.toNat)
  passed : ∀ P : Nat → Prop,
    (∀ c, fails c = none → ∀ j, c ≤ j → j < c + chunk n.toNat c (off.toNat + c) → P j) →
    ∀ j < w, P j
  aligned : w = 0 ∨ w = n.toNat ∨ (off.toNat + w) % BSIZE = 0
  stop : (w = n.toNat ∧ extra = 0) ∨
    (w < n.toNat ∧ extra = 0 ∧ (balloc sb r.2).1 = 0 ∧ ¬ Mapped sb r.2 inum (off.toNat + w)) ∨
    (w < n.toNat ∧ Mapped sb r.2 inum (off.toNat + w) ∧
      ∃ k, fails w = some k ∧ extra = min k (chunk n.toNat w (off.toNat + w)))

theorem byteAt_iupdate (k : Nat) : byteAt sb (iupdate sb inum s) i k = byteAt sb s i k :=
  same_bytes (s := s) (t := iupdate sb inum s) rfl (ip_iupdate s inum i) k

theorem byteAt_resized {size : BitVec 32} (k : Nat) :
    byteAt sb (resized s inum size) i k = byteAt sb s i k := by
  unfold byteAt
  split
  · rw [named_resized]
    rfl
  · rfl

theorem mapped_iupdate {k : Nat} : Mapped sb (iupdate sb inum s) i k ↔ Mapped sb s i k := by
  simp only [Mapped, named_iupdate]

theorem mapped_resized {size : BitVec 32} {k : Nat} :
    Mapped sb (resized s inum size) i k ↔ Mapped sb s i k := by
  simp only [Mapped, named_resized]

theorem balloc_congr (bits : t.bits = s.bits) : (balloc sb t).1 = (balloc sb s).1 := by
  unfold balloc
  rw [bits]
  split <;> rfl

theorem writei_rejected (src : Nat → Byte) (fails : Nat → Option Nat) {off n : BitVec 32}
    (rejected : Rejected s inum off n) : writei sb inum src fails off n s = .ok (-1, s) := by
  unfold writei
  split
  · rfl
  next fine => exact if_pos ((or_assoc.mpr rejected).resolve_left fine)

/-- What the loop came to, said of a state `u` with the same blocks in the same places. -/
theorem WriteiRun.of_loop {src : Nat → Byte} {fails : Nat → Option Nat} {off n : BitVec 32}
    {w off' extra : Nat}
    (run : WriteRun sb inum src fails n.toNat off.toNat 0 s (w, off', t) extra)
    (bytes : ∀ i k, byteAt sb u i k = byteAt sb t i k)
    (mapped : ∀ i k, Mapped sb u i k ↔ Mapped sb t i k) (bits : u.bits = t.bits)
    (size : (u.ip inum).size.toNat = max (s.ip inum).size.toNat (off.toNat + w))
    (alloc : ∀ i, Allocated sb u i ↔ Allocated sb t i)
    (type : (u.ip inum).type = (t.ip inum).type) (others : ∀ i, i ≠ inum → u.ip i = t.ip i) :
    WriteiRun sb inum src fails off n s (w, u) w extra := by
  refine ⟨rfl, run.high, size, fun i => (alloc i).trans run.grown.allocated,
    type.trans (run.grown.local_.type inum), fun i other => ?_, fun i k m away => ?_,
    fun k low high => (bytes inum k).trans (run.new k low high),
    fun P chunks j below => run.passed P chunks j (Nat.zero_le j) below, run.aligned, ?_⟩
  · have inode : t.inode i = s.inode i := run.grown.local_.others i other
    have dinode : t.dinode = s.dinode := run.grown.local_.dinode
    rw [others i other, FileSystem.ip, FileSystem.ip, inode, dinode]
  · refine (bytes i k).trans (run.kept i k m ?_)
    simpa using away
  · refine run.stop.imp_right (Or.imp ?_ ?_)
    · rintro ⟨short, none, full, unmapped⟩
      exact ⟨short, none, (balloc_congr bits).trans full, fun m => unmapped ((mapped _ _).mp m)⟩
    · rintro ⟨short, there, stopped⟩
      exact ⟨short, (mapped _ _).mpr there, stopped⟩

theorem writei_run (h : Consistent sb s) (alloc : Allocated sb s inum) (src : Nat → Byte)
    (fails : Nat → Option Nat) {off n : BitVec 32} (accepted : ¬ Rejected s inum off n) :
    Yields (writei sb inum src fails off n s) fun r =>
      ∃ w extra, WriteiRun sb inum src fails off n s r w extra := by
  simp only [Rejected, not_or] at accepted
  obtain ⟨inside, fits, small⟩ := accepted
  have sum := sum_toNat fits
  have low : off.toNat ≤ (s.ip inum).size.toNat := by
    rw [BitVec.lt_def] at inside
    omega
  have start : Covers sb s inum (off.toNat + 0) := fun k below =>
    h.covered inum alloc k (by omega)
  have fits' : off.toNat + n.toNat ≤ MAXFILE * BSIZE := by omega
  have loop := writeLoop_run src fails fits' n.toNat 0 s h.owned alloc start (Nat.zero_le _)
    (Nat.sub_le _ _)
  simp only [writei, inside, fits, small, or_self, if_false]
  apply loop.bind
  rintro ⟨w, off', t⟩ ⟨extra, run⟩
  have moved := run.moved
  have high := run.high
  have same := run.grown.local_.size inum
  simp only at moved high same
  have short : (BitVec.ofNat 32 off').toNat = off' := by
    rw [BitVec.toNat_ofNat]
    unfold MAXFILE BSIZE at small
    omega
  simp only [same]
  split
  next longer =>
    refine yields_ok ⟨w, extra, .of_loop run ?_ ?_ rfl ?_ ?_ ?_ ?_⟩
    · exact fun i k => (byteAt_iupdate k).trans (byteAt_resized k)
    · exact fun i k => mapped_iupdate.trans mapped_resized
    · simp only [ip_iupdate, ip_setIp, if_true, short]
      omega
    · intro i
      have resized_ : Allocated sb (resized t inum (BitVec.ofNat 32 off')) i ↔
        Allocated sb t i := allocated_resized
      simp only [Allocated, ip_iupdate]
      exact resized_
    · simp only [ip_iupdate, ip_setIp, if_true]
    · intro i other
      rw [ip_iupdate, ip_setIp, if_neg other]
  next within =>
    refine yields_ok ⟨w, extra, .of_loop run ?_ ?_ rfl ?_ ?_ ?_ ?_⟩
    · exact fun i k => byteAt_iupdate k
    · exact fun i k => mapped_iupdate
    · simp only [ip_iupdate, same]
      omega
    · intro i
      simp only [Allocated, ip_iupdate]
    · rw [ip_iupdate]
    · exact fun i other => by rw [ip_iupdate]

/-- Where no copy fails, only a full disk ends the call early. -/
theorem WriteiRun.uncut {src : Nat → Byte} {off n : BitVec 32} {r : Int × FileSystem}
    {w extra : Nat} (run : WriteiRun sb inum src (fun _ => none) off n s r w extra) :
    extra = 0 ∧ (w < n.toNat → (balloc sb r.2).1 = 0) := by
  rcases run.stop with ⟨all, none⟩ | ⟨short, none, full, -⟩ | ⟨-, -, k, failed, -⟩
  · exact ⟨none, fun short => by omega⟩
  · exact ⟨none, fun _ => full⟩
  · cases failed

/-- The content after a call whose copies all succeed. -/
theorem WriteiRun.content_eq {src : Nat → Byte} {fails : Nat → Option Nat} {off n : BitVec 32}
    {r : Int × FileSystem} {w : Nat} (h : Consistent sb s) (alloc : Allocated sb s inum)
    (inside : off.toNat ≤ (s.ip inum).size.toNat)
    (run : WriteiRun sb inum src fails off n s r w 0) :
    content sb r.2 inum =
      splice (content sb s inum) off.toNat ((List.range w).map src) := by
  rw [content, run.size]
  refine splice_range inside fun k below => ?_
  by_cases written : off.toNat ≤ k ∧ k < off.toNat + w
  · rw [if_pos written]
    exact run.new k written.1 written.2
  · rw [if_neg written]
    exact run.kept inum k (.of_covers (h.covered inum alloc) (by omega)) (by omega)

/-- The bytes that a read of `n` bytes from `off` on finds in an array; none if it begins
behind the end or wraps around. -/
def readOf (array : List Byte) (off n : BitVec 32) : List Byte :=
  if array.length < off.toNat ∨ off + n < off then [] else slice array off.toNat n.toNat

theorem readi_content (alloc : Allocated sb s inum)
    (covered : Covers sb s inum (s.ip inum).size.toNat) (off n : BitVec 32) :
    readi sb inum (fun _ => false) off n s =
      .ok ((readOf (content sb s inum) off n).length, readOf (content sb s inum) off n, s) := by
  have length : (content sb s inum).length = (s.ip inum).size.toNat := by simp [content]
  unfold readi readOf
  simp only [length, ← BitVec.lt_def]
  split
  · rfl
  next small =>
    rw [not_or] at small
    have sum := sum_toNat small.2
    have low : off.toNat ≤ (s.ip inum).size.toNat := by
      have below := small.1
      rw [BitVec.lt_def] at below
      omega
    -- the request cut at the end of the file
    have cut : (if (s.ip inum).size < off + n then (s.ip inum).size - off else n).toNat =
        min n.toNat ((s.ip inum).size.toNat - off.toNat) := by
      simp only [BitVec.lt_def, sum]
      split
      · rw [BitVec.toNat_sub_of_le (by rw [BitVec.le_def]; omega)]
        omega
      · omega
    have within : Covers sb s inum
        (off.toNat + min n.toNat ((s.ip inum).size.toNat - off.toNat)) :=
      fun k below => covered k (by omega)
    have loop := readLoop_bytes alloc within _ 0 [] (Nat.zero_le _) (Nat.sub_le _ _)
    rw [cut, content, slice_range]
    simpa using loop

/-- The call does not write the file: it neither writes nor truncates it and does not
drop the last reference to it. -/
def Spares (inum : Nat) : Call → Prop
  | .writei i .. | .itrunc i | .iput i => i ≠ inum
  | _ => True

instance (inum : Nat) (c : Call) : Decidable (Spares inum c) := by
  cases c <;> unfold Spares <;> infer_instance

/-- No block is written and only inode `j` is changed. -/
structure Apart (j : Nat) (s t : FileSystem) : Prop where
  block : t.block = s.block
  ip : ∀ i, i ≠ j → t.ip i = s.ip i

theorem Apart.refl (j : Nat) (s : FileSystem) : Apart j s s := ⟨rfl, fun _ _ => rfl⟩

theorem Apart.trans {j : Nat} (h : Apart j s t) (h' : Apart j t u) : Apart j s u :=
  ⟨h'.block.trans h.block, fun i other => (h'.ip i other).trans (h.ip i other)⟩

theorem apart_setIp (j : Nat) (ip : Dinode) : Apart j s (s.setIp j ip) :=
  ⟨rfl, fun i other => by rw [ip_setIp, if_neg other]⟩

theorem apart_iupdate (sb : Superblock) (j : Nat) : Apart j s (iupdate sb j s) :=
  ⟨rfl, fun i _ => ip_iupdate s j i⟩

theorem bfree_apart {j : Nat} {b : BlockNo} (ok : bfree sb b s = .ok t) : Apart j s t := by
  unfold bfree at ok
  split at ok
  · obtain rfl := Except.ok.inj ok
    exact ⟨rfl, fun _ _ => rfl⟩
  · exact nomatch ok

theorem freeDirect_apart {j : Nat} {a : Fin 12} (ok : freeDirect sb j a s = .ok t) :
    Apart j s t := by
  unfold freeDirect at ok
  split at ok
  · obtain rfl := Except.ok.inj ok
    exact .refl j s
  · obtain ⟨u, freed, ok⟩ := bind_eq_ok.mp ok
    obtain rfl := pure_eq_ok.mp ok
    exact (bfree_apart freed).trans (apart_setIp j _)

theorem freeIndirect_apart {j : Nat} (ok : freeIndirect sb j s = .ok t) : Apart j s t := by
  unfold freeIndirect at ok
  simp only at ok
  split at ok
  · obtain rfl := Except.ok.inj ok
    exact .refl j s
  · obtain ⟨u, entries, ok⟩ := bind_eq_ok.mp ok
    obtain ⟨v, freed, ok⟩ := bind_eq_ok.mp ok
    obtain rfl := pure_eq_ok.mp ok
    have listed : Apart j s u := by
      refine foldlM_invariant (I := Apart j s) ?_ (.refl j s) entries
      intro u e u' before one
      unfold freeEntry at one
      split at one
      · obtain rfl := Except.ok.inj one
        exact before
      · exact before.trans (bfree_apart one)
    exact (listed.trans (bfree_apart freed)).trans (apart_setIp j _)

theorem itrunc_apart {j : Nat} (ok : itrunc sb j s = .ok t) : Apart j s t := by
  obtain ⟨u, direct, ok⟩ := bind_eq_ok.mp ok
  obtain ⟨v, rest, ok⟩ := bind_eq_ok.mp ok
  obtain rfl := pure_eq_ok.mp ok
  have trimmed : Apart j s u := by
    refine foldlM_invariant (I := Apart j s) ?_ (.refl j s) direct
    exact fun _ _ _ before one => before.trans (freeDirect_apart one)
  have emptied := trimmed.trans (freeIndirect_apart rest)
  exact (emptied.trans (apart_setIp j _)).trans (apart_iupdate sb j)

theorem iputFree_apart {j : Nat} (ok : iputFree sb j s = .ok t) :
    Apart j s t := by
  unfold iputFree at ok
  split at ok
  · obtain rfl := Except.ok.inj ok
    exact .refl j s
  · split at ok
    · obtain ⟨u, cut, ok⟩ := bind_eq_ok.mp ok
      obtain rfl := pure_eq_ok.mp ok
      have freed := ((itrunc_apart cut).trans (apart_setIp j { u.ip j with type := 0 })).trans
        (apart_iupdate sb j)
      refine ⟨freed.block, fun i other => ?_⟩
      rw [← freed.ip i other]
      simp [FileSystem.ip, other]
    · obtain rfl := Except.ok.inj ok
      exact .refl j s

/-- The inode is the same, and so are its bytes. -/
structure SameFile (sb : Superblock) (inum : Nat) (s t : FileSystem) : Prop where
  ip : t.ip inum = s.ip inum
  bytes : ∀ k < (s.ip inum).size.toNat, byteAt sb t inum k = byteAt sb s inum k

theorem SameFile.alloc (h : SameFile sb inum s t) :
    Allocated sb t inum ↔ Allocated sb s inum := by
  rw [Allocated, Allocated, h.ip]

theorem SameFile.content (h : SameFile sb inum s t) :
    content sb t inum = content sb s inum := by
  rw [FileContents.content, FileContents.content, h.ip]
  exact List.map_congr_left fun k below => h.bytes k (List.mem_range.mp below)

theorem SameFile.trans (h : SameFile sb inum s t) (h' : SameFile sb inum t u) :
    SameFile sb inum s u :=
  ⟨h'.ip.trans h.ip, fun k below => (h'.bytes k (h.ip ▸ below)).trans (h.bytes k below)⟩

theorem Apart.same {j : Nat} (h : Apart j s t) (other : inum ≠ j) : SameFile sb inum s t :=
  ⟨h.ip inum other, fun k _ => same_bytes h.block (h.ip inum other) k⟩

/-- Only the in-memory copies of inodes differ. -/
theorem copies_same (h : Consistent sb s) (h' : Consistent sb t) (block : t.block = s.block)
    (dinode : t.dinode = s.dinode) : SameFile sb inum s t := by
  have ip : t.ip inum = s.ip inum := by rw [h.ip_eq, h'.ip_eq, dinode]
  exact ⟨ip, fun k _ => same_bytes block ip k⟩

theorem ilock_same {j : Nat} (h : Consistent sb s) (ok : ilock sb j s = .ok t) :
    Consistent sb t ∧ Allocated sb t j ∧ SameFile sb inum s t := by
  obtain ⟨consistent, alloc, -, -⟩ := ilock_ok h ok
  obtain ⟨copies, frame⟩ := ilock_frame ok
  exact ⟨consistent, alloc, copies_same h consistent (by rw [frame]) (by rw [frame])⟩

theorem ialloc_same (h : Consistent sb s) (alloc : Allocated sb s inum) (type : BitVec 16) :
    SameFile sb inum s (ialloc sb type s).2 := by
  unfold ialloc
  simp only
  split
  · exact (Apart.refl (inum + 1) s).same (by omega)
  next j found =>
    have free := List.find?_some found
    simp only [decide_eq_true_eq] at free
    have other : inum ≠ j := by
      rintro rfl
      exact alloc.2 (by rw [h.ip_eq]; exact free.2)
    have apart : Apart j s
        { s with dinode := update s.dinode j ⟨type, 0, 0, 0, 0, fun _ => 0⟩,
                 logged := IBLOCK sb j :: s.logged } :=
      ⟨rfl, fun i away => by simp [FileSystem.ip, away]⟩
    exact apart.same other

/-- A write to another file. -/
theorem writei_same {j : Nat} (h : Consistent sb s) (alloc : Allocated sb s inum)
    (other : inum ≠ j) {src : Nat → Byte} {fails : Nat → Option Nat} {off n : BitVec 32}
    (live : Allocated sb s j) {r : Int × FileSystem}
    (ok : writei sb j src fails off n s = .ok r) : SameFile sb inum s r.2 := by
  by_cases rejected : Rejected s j off n
  · rw [writei_rejected src fails rejected] at ok
    cases ok
    exact (Apart.refl j s).same other
  · obtain ⟨w, extra, run⟩ := (writei_run h live src fails rejected).of_ok ok
    exact ⟨run.others inum other, fun k below =>
      run.kept inum k (.of_covers (h.covered inum alloc) below) (.inl other)⟩

theorem step_same (h : Consistent sb s) (alloc : Allocated sb s inum) {c : Call}
    (spares : Spares inum c) (ok : step sb s c = .ok t) : SameFile sb inum s t := by
  cases c with
  | ialloc type =>
    obtain rfl := Except.ok.inj ok
    exact ialloc_same h alloc type
  | ilock j => exact (ilock_same h ok).2.2
  | forget j =>
    obtain rfl := Except.ok.inj ok
    exact copies_same h (forget_consistent h j) rfl rfl
  | writei j src fails off n =>
    obtain ⟨u, locked, ok⟩ := bind_eq_ok.mp ok
    obtain ⟨⟨r, v⟩, written, ok⟩ := bind_eq_ok.mp ok
    obtain rfl := pure_eq_ok.mp ok
    obtain ⟨consistent, live, same⟩ := ilock_same h locked
    exact same.trans (writei_same consistent (same.alloc.mpr alloc) (Ne.symm spares) live written)
  | readi j fails off n =>
    obtain ⟨u, locked, ok⟩ := bind_eq_ok.mp ok
    obtain ⟨⟨r, out, v⟩, read, ok⟩ := bind_eq_ok.mp ok
    obtain rfl := pure_eq_ok.mp ok
    obtain ⟨consistent, live, same⟩ := ilock_same h locked
    have unchanged : v = u := (readi_present live (consistent.covered j live)).of_ok read
    exact unchanged ▸ same
  | itrunc j =>
    obtain ⟨u, locked, ok⟩ := bind_eq_ok.mp ok
    exact (ilock_same h locked).2.2.trans ((itrunc_apart ok).same (Ne.symm spares))
  | iput j => exact (iputFree_apart ok).same (Ne.symm spares)

/-- What is read of a file after calls that spare it. -/
theorem read_later (h : Consistent sb s) (alloc : Allocated sb s inum) {cs : List Call}
    (spare : ∀ c ∈ cs, Spares inum c) (ok : run (step sb) s cs = .ok t) (off n : BitVec 32) :
    readi sb inum (fun _ => false) off n t =
      .ok ((readOf (content sb s inum) off n).length, readOf (content sb s inum) off n, t) := by
  induction cs generalizing s with
  | nil =>
    obtain rfl := Except.ok.inj ok
    exact readi_content alloc (h.covered inum alloc) off n
  | cons c cs ih =>
    obtain ⟨u, first, rest⟩ := run_cons_ok.mp ok
    have same := step_same h alloc (spare c List.mem_cons_self) first
    rw [← same.content]
    exact ih (step_keeps h first) (same.alloc.mpr alloc)
      (fun d member => spare d (List.mem_cons_of_mem c member)) rest

/-- `writei` splices the bytes it wrote into the content of the file, all of them unless the
disk is full, and later reads return slices of that content. -/
theorem byte_array (h : Consistent sb s) (alloc : Allocated sb s inum) (src : Nat → Byte)
    (off n : BitVec 32) :
    Yields (writei sb inum src (fun _ => none) off n s) fun r =>
      (r.1 = -1 ↔ Rejected s inum off n) ∧ (Rejected s inum off n → r.2 = s) ∧
      (¬ Rejected s inum off n → ∃ w ≤ n.toNat, r.1 = w ∧
        (w < n.toNat → (balloc sb r.2).1 = 0) ∧
        content sb r.2 inum =
          splice (content sb s inum) off.toNat ((List.range w).map src) ∧
        (r.2.ip inum).size.toNat = max (s.ip inum).size.toNat (off.toNat + w)) ∧
      ∀ cs t, (∀ c ∈ cs, Spares inum c) → run (step sb) r.2 cs = .ok t → ∀ off' n',
        readi sb inum (fun _ => false) off' n' t =
          .ok ((readOf (content sb r.2 inum) off' n').length,
            readOf (content sb r.2 inum) off' n', t) := by
  by_cases rejected : Rejected s inum off n
  · refine ⟨(-1, s), writei_rejected src _ rejected, ?_, fun _ => rfl,
      fun fine => absurd rejected fine, ?_⟩
    · exact ⟨fun _ => rejected, fun _ => rfl⟩
    · exact fun cs t spare ok => read_later h alloc spare ok
  · obtain ⟨r, ok, w, extra, run⟩ := writei_run h alloc src (fun _ => none) rejected
    have consistent := (writei_yields h alloc).of_ok ok
    have inside : off.toNat ≤ (s.ip inum).size.toNat := by
      have low := not_or.mp rejected
      rw [BitVec.lt_def] at low
      omega
    obtain ⟨rfl, full⟩ := run.uncut
    refine ⟨r, ok, ?_, fun bad => absurd bad rejected, fun _ => ?_, ?_⟩
    · refine iff_of_false (fun failed => ?_) rejected
      have result := run.result
      omega
    · exact ⟨w, run.high, run.result, full, run.content_eq h alloc inside, run.size⟩
    · exact fun cs t spare ok => read_later consistent ((run.alloc inum).mpr alloc) spare ok

theorem byte_array_fresh : ∃ t, run (step smallDisk) fresh [.ialloc 2] = .ok t ∧
    Yields (writei smallDisk 1 (fun _ => 7) (fun _ => none) 0 3 t) fun r => r.1 ≠ -1 := by
  have ok : run (step smallDisk) fresh [.ialloc 2] = .ok (ialloc smallDisk 2 fresh).2 := rfl
  have live : Allocated smallDisk (ialloc smallDisk 2 fresh).2 1 := by
    unfold Allocated
    decide
  refine ⟨_, ok, (byte_array (run_consistent fresh_consistent ok) live _ 0 3).mono ?_⟩
  exact fun r all failed => absurd (all.1.mp failed) (by decide +kernel)

end FileContents
