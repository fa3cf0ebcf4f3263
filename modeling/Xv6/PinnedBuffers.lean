import Mathlib.Data.List.GetD
import Mathlib.Data.List.Infix
import Xv6.LoggedBuffers

/-!
# Pinned buffers keep what was logged

Every block in the log has its buffer pinned, from the `log_write` that puts it
there until `install_trans` has written it home. A pinned buffer is neither
recycled nor read in again, so `write_log` finds in it what was last put there.
-/

namespace PinnedBuffers
open EventRuns Outcomes LogFormat BufferCache CacheCoherence LoggedBuffers Tallies Function

variable {Proc : Type} [DecidableEq Proc] [Fintype Proc] {dev : BitVec 32} {start : BlockNo}
  {s t : State Proc} {c d : Cache Proc Block} {e : BufferCache.Event Proc Block} {p q : Proc}

/-- The length of the process table. -/
def NPROC : Nat := 64

omit [Fintype Proc] in
theorem onLog_ok {e : LogOperations.Event Proc} : onLog s e = .ok t ↔
    ∃ log, LogOperations.step s.log e = .ok log ∧ { s with log := log } = t := by
  unfold onLog
  cases LogOperations.step s.log e <;> simp

omit [Fintype Proc] in
theorem onCache_ok : onCache s e = .ok t ↔
    ∃ d, BufferCache.step s.cache e = .ok d ∧ { s with cache := d } = t := by
  unfold onCache
  cases BufferCache.step s.cache e <;> simp

/-- After a change of data. -/
def changed (dev : BitVec 32) (s : State Proc) (u : Use) (data : Block) : State Proc :=
  { s with
    cache := s.cache.setBuf u.buf { s.cache.buf u.buf with data := data }
    latest := if (s.cache.buf u.buf).dev = dev then update s.latest (blockAt s u) data
      else s.latest }

omit [Fintype Proc] in
theorem put_ok {u : Use} {data : Block} (ok : put dev s p u data = .ok t) :
    (s.cache.user p).place = .running ∧ t = changed dev s u data := by
  obtain ⟨r, went, rest⟩ := bind_eq_ok.mp ok
  obtain ⟨d, change, rfl⟩ := onCache_ok.mp went
  simp only [BufferCache.step] at change
  split at change
  next here =>
    obtain rfl := Except.ok.inj change
    refine ⟨here, ?_⟩
    unfold changed
    split at rest
    next device => rw [if_pos device, ← Except.ok.inj rest]
    next device => rw [if_neg device, ← Except.ok.inj rest]
  next => cases change

/-- The buffer of a logged block: pinned once, and with the contents last put
there. -/
def Kept (dev : BitVec 32) (s : State Proc) (blockno : BlockNo) : Prop :=
  ∃ b, (s.cache.buf b).dev = dev ∧ (s.cache.buf b).blockno = blockno ∧ s.cache.pins b = 1 ∧
    (s.cache.buf b).valid = true ∧ (s.cache.buf b).data = s.latest blockno

structure Pinning (dev : BitVec 32) (s : State Proc) : Prop where
  nodup : s.pinned.Nodup
  kept : ∀ blockno ∈ s.pinned, Kept dev s blockno
  only : ∀ b, s.cache.pins b ≠ 0 →
    s.cache.pins b = 1 ∧ (s.cache.buf b).dev = dev ∧ (s.cache.buf b).blockno ∈ s.pinned
  balance : ∀ b, s.bpins b = s.bunpins b + s.cache.pins b

omit [DecidableEq Proc] in
theorem few_of (procs : Fintype.card Proc ≤ NPROC) (locked : Locked c)
    (pins : ∀ b, c.pins b ≤ 1) : Few c := by
  intro b
  have each (p : Proc) : count b (c.user p) ≤ 3 := by
    have parts := count_eq (c.user p) (locked.once p) b
    have one := Bool.toNat_le (holds b (c.user p))
    have two := Bool.toNat_le (waits b (c.user p))
    have three := Bool.toNat_le (leaves b (c.user p))
    omega
  have sum : ∑ p, count b (c.user p) ≤ Fintype.card Proc * 3 := by
    simpa using Finset.sum_le_card_nsmul Finset.univ (fun p => count b (c.user p)) 3
      fun p _ => each p
  have pin := pins b
  unfold references
  unfold NPROC at procs
  omega

/-- A proper step of the cache that pins no buffer twice. -/
theorem coherent_next (procs : Fintype.card Proc ≤ NPROC) (h : Coherent c)
    (proper : BufferCache.Proper c e) (ok : BufferCache.step c e = .ok d)
    (pins : ∀ b, d.pins b ≤ 1) : Coherent d :=
  coherent_step h proper ok (few_of procs (locked_step h.locked (step_moves h.ring ok) proper) pins)

omit [DecidableEq Proc] [Fintype Proc] in
theorem Pinning.le_one (h : Pinning dev s) (b : Fin NBUF) : s.cache.pins b ≤ 1 := by
  by_cases pinned : s.cache.pins b = 0
  · omega
  · exact (h.only b pinned).1.le

omit [DecidableEq Proc] in
/-- A pinned buffer is in use. -/
theorem pinned_busy (h : Coherent c) {b : Fin NBUF} (pinned : c.pins b ≠ 0) :
    (c.buf b).refcnt ≠ 0 :=
  fun free => pinned (h.counted.unreferenced h.few free).2

/-- The calls that neither change data nor pin. -/
def quiet : BufferCache.Event Proc Block → Prop
  | .change _ _ _ | .bpin _ _ | .bunpin _ _ => False
  | _ => True

theorem quiet_pins (h : Coherent c) (still : quiet e) (ok : BufferCache.step c e = .ok d) :
    d.pins = c.pins := by
  apply pins_step h.ring ok
  · rintro p b rfl
    exact still
  · rintro p b rfl
    exact still

/-- What a quiet call does to a pinned buffer. -/
theorem quiet_keeps (h : Coherent c) (still : quiet e) (ok : BufferCache.step c e = .ok d)
    {b : Fin NBUF} (busy : (c.buf b).refcnt ≠ 0) (full : (c.buf b).valid = true) :
    (d.buf b).valid = true ∧ (d.buf b).data = (c.buf b).data := by
  apply contents_step h.ring ok busy full
  rintro p u data rfl
  exact still.elim

theorem Pinning.quiet (h : Pinning dev s) (coherent : Coherent s.cache) (still : quiet e)
    (ok : BufferCache.step s.cache e = .ok d) : Pinning dev { s with cache := d } := by
  have pins := quiet_pins coherent still ok
  have same {b : Fin NBUF} (pinned : s.cache.pins b ≠ 0) :=
    kept_step coherent.ring ok (pinned_busy coherent pinned)
  refine ⟨h.nodup, fun blockno mem => ?_, fun b pinned => ?_, fun b => ?_⟩
  · obtain ⟨b, device, number, once, full, data⟩ := h.kept blockno mem
    have pinned : s.cache.pins b ≠ 0 := by omega
    obtain ⟨device', number'⟩ := same pinned
    obtain ⟨full', data'⟩ := quiet_keeps coherent still ok (pinned_busy coherent pinned) full
    exact ⟨b, device'.trans device, number'.trans number, (congrFun pins b).trans once, full',
      data'.trans data⟩
  · change d.pins b ≠ 0 at pinned
    rw [pins] at pinned
    obtain ⟨once, device, mem⟩ := h.only b pinned
    obtain ⟨device', number'⟩ := same pinned
    exact ⟨(congrFun pins b).trans once, device'.trans device, number'.symm ▸ mem⟩
  · exact (h.balance b).trans (by rw [pins])

omit [DecidableEq Proc] in
/-- Changed data is the last put in the buffer. -/
theorem Pinning.change (h : Pinning dev s) (coherent : Coherent s.cache) (u : Use) (data : Block) :
    Pinning dev (changed dev s u data) := by
  have device (b : Fin NBUF) : ((changed dev s u data).cache.buf b).dev = (s.cache.buf b).dev :=
    setBuf_keeps Buf.dev (by rfl) b
  have number (b : Fin NBUF) :
      ((changed dev s u data).cache.buf b).blockno = (s.cache.buf b).blockno :=
    setBuf_keeps Buf.blockno (by rfl) b
  have valid (b : Fin NBUF) : ((changed dev s u data).cache.buf b).valid = (s.cache.buf b).valid :=
    setBuf_keeps Buf.valid (by rfl) b
  refine ⟨h.nodup, fun blockno mem => ?_, fun b pinned => ?_, h.balance⟩
  · obtain ⟨b, here, same, once, full, last⟩ := h.kept blockno mem
    refine ⟨b, (device b).trans here, (number b).trans same, once, (valid b).trans full, ?_⟩
    by_cases this : b = u.buf
    · subst this
      have put_ : blockAt s u = blockno := same
      simp [changed, setBuf_at, here, put_]
    · have apart : (s.cache.buf u.buf).dev = dev → blockno ≠ blockAt s u := by
        intro device_u number_u
        have live := coherent.standing.pinned b (by omega)
        exact this (coherent.standing.apart b u.buf live (here.trans device_u.symm)
          (same.trans number_u))
      have kept : ((changed dev s u data).cache.buf b).data = (s.cache.buf b).data :=
        congrArg Buf.data (setBuf_of_ne _ this)
      rw [kept, last, changed]
      split
      next device_u => exact (update_of_ne (apart device_u) _ _).symm
      next => rfl
  · obtain ⟨once, here, mem⟩ := h.only b pinned
    exact ⟨once, (device b).trans here, (number b).symm ▸ mem⟩

/-- After `bpin` or `bunpin`: `n` is the count and `k` the pins. -/
def repinned (c : Cache Proc Block) (b : Fin NBUF) (n : BitVec 32) (k : Nat) : Cache Proc Block :=
  { c.setRefcnt b n with pins := update c.pins b k }

omit [DecidableEq Proc] [Fintype Proc] in
theorem repinned_keeps (c : Cache Proc Block) (b : Fin NBUF) (n : BitVec 32) (k : Nat)
    (a : Fin NBUF) : ((repinned c b n k).buf a).dev = (c.buf a).dev ∧
      ((repinned c b n k).buf a).blockno = (c.buf a).blockno ∧
      ((repinned c b n k).buf a).valid = (c.buf a).valid ∧
      ((repinned c b n k).buf a).data = (c.buf a).data :=
  ⟨setBuf_keeps Buf.dev (by rfl) a, setBuf_keeps Buf.blockno (by rfl) a,
    setBuf_keeps Buf.valid (by rfl) a, setBuf_keeps Buf.data (by rfl) a⟩

omit [DecidableEq Proc] [Fintype Proc] in
/-- A pinned block stays pinned when the pins of another buffer change. -/
theorem Kept.repin (h : Kept dev s blockno) {b : Fin NBUF} {n : BitVec 32} {k : Nat}
    {latest : BlockNo → Block}
    (other : (s.cache.buf b).dev = dev → (s.cache.buf b).blockno ≠ blockno)
    (same : latest blockno = s.latest blockno) {pinned : List BlockNo}
    {bpins bunpins : Fin NBUF → Nat} : Kept dev { s with
      cache := repinned s.cache b n k, latest := latest, pinned := pinned, bpins := bpins
      bunpins := bunpins } blockno := by
  obtain ⟨a, device, number, once, full, data⟩ := h
  obtain ⟨device', number', full', data'⟩ := repinned_keeps s.cache b n k a
  have apart : a ≠ b := by
    rintro rfl
    exact other device number
  exact ⟨a, device'.trans device, number'.trans number, (update_of_ne apart _ _).trans once,
    full'.trans full, data'.trans (data.trans same.symm)⟩

omit [DecidableEq Proc] [Fintype Proc] in
/-- A block that is new in the log. -/
theorem Pinning.pin (h : Pinning dev s) {u : Use} {n : BitVec 32}
    (device : (s.cache.buf u.buf).dev = dev) (full : (s.cache.buf u.buf).valid = true)
    (new : blockAt s u ∉ s.pinned) : Pinning dev { s with
      cache := repinned s.cache u.buf n (s.cache.pins u.buf + 1)
      latest := update s.latest (blockAt s u) (dataAt s u)
      pinned := s.pinned ++ [blockAt s u]
      bpins := update s.bpins u.buf (s.bpins u.buf + 1) } := by
  have unpinned : s.cache.pins u.buf = 0 := by_contra fun pinned => new (h.only _ pinned).2.2
  refine ⟨?_, fun blockno mem => ?_, fun b pinned => ?_, fun b => ?_⟩
  · change (s.pinned ++ [blockAt s u]).Nodup
    rw [← List.concat_eq_append]
    exact h.nodup.concat new
  · rcases List.mem_append.mp mem with mem | mem
    · have other : blockno ≠ blockAt s u := ne_of_mem_of_not_mem mem new
      exact (h.kept blockno mem).repin (fun _ => other.symm) (update_of_ne other _ _)
    · obtain rfl := List.mem_singleton.mp mem
      obtain ⟨device', number', full', data'⟩ :=
        repinned_keeps s.cache u.buf n (s.cache.pins u.buf + 1) u.buf
      refine ⟨u.buf, device'.trans device, number', ?_, full'.trans full, data'.trans ?_⟩
      · simp [repinned, unpinned]
      · simp [dataAt]
  · obtain ⟨device', number', -, -⟩ :=
      repinned_keeps s.cache u.buf n (s.cache.pins u.buf + 1) b
    by_cases this : b = u.buf
    · subst this
      refine ⟨by simp [repinned, unpinned], device'.trans device, ?_⟩
      exact List.mem_append_right _ (List.mem_singleton.mpr number')
    · obtain ⟨once, here, mem⟩ := h.only b (by simpa [repinned, this] using pinned)
      refine ⟨by simpa [repinned, this] using once, device'.trans here, ?_⟩
      exact List.mem_append_left _ (number'.symm ▸ mem)
  · by_cases this : b = u.buf
    · subst this
      simp [repinned, h.balance, add_assoc]
    · simpa [repinned, this] using h.balance b

omit [DecidableEq Proc] in
/-- A block that goes home. -/
theorem Pinning.unpin (h : Pinning dev s) (coherent : Coherent s.cache) {b : Fin NBUF}
    {n : BitVec 32} (pinned : s.cache.pins b ≠ 0) : Pinning dev { s with
      cache := repinned s.cache b n (s.cache.pins b - 1)
      pinned := s.pinned.erase (s.cache.buf b).blockno
      bunpins := update s.bunpins b (s.bunpins b + 1) } := by
  obtain ⟨once, device, mem⟩ := h.only b pinned
  refine ⟨h.nodup.erase _, fun blockno mem => ?_, fun a pinned => ?_, fun a => ?_⟩
  · obtain ⟨other, mem⟩ := h.nodup.mem_erase_iff.mp mem
    exact (h.kept blockno mem).repin (fun _ => other.symm) rfl
  · obtain ⟨device', number', -, -⟩ := repinned_keeps s.cache b n (s.cache.pins b - 1) a
    have other : a ≠ b := by
      rintro rfl
      simp [repinned, once] at pinned
    obtain ⟨once', here, mem'⟩ := h.only a (by simpa [repinned, other] using pinned)
    have apart : (s.cache.buf a).blockno ≠ (s.cache.buf b).blockno := fun same =>
      other (coherent.standing.apart a b (coherent.standing.pinned a (by omega))
        (here.trans device.symm) same)
    refine ⟨by simpa [repinned, other] using once', device'.trans here, ?_⟩
    exact number'.symm ▸ (List.mem_erase_of_ne apart).mpr mem'
  · by_cases this : a = b
    · subst this
      simp [repinned, h.balance, once]
    · simpa [repinned, this] using h.balance a

/-- The variables whose buffers the rest of a script relies on. -/
def liveRegs : List Instr → List Reg
  | [] => []
  | .bread r _ :: rest => (liveRegs rest).erase r
  | .brelse r :: rest => r :: liveRegs rest
  | _ :: rest => liveRegs rest

/-- The block that a variable is for. -/
def target (start : BlockNo) (lh : List BlockNo) : LogOperations.Phase → Reg → BlockNo
  | .writeLog tail, .dbuf | .installTrans tail, .dbuf => lh.getD tail 0
  | .writeLog tail, .lbuf | .installTrans tail, .lbuf => logBlock start tail
  | _, _ => start

/-- What holds of the next call of a script: it uses variables that are live, reads
the block that its variable is for, and `bunpin` comes once, for the block that
goes home. -/
def Fits (start : BlockNo) (lh : List BlockNo) (phase : LogOperations.Phase) (rest : List Instr) :
    Instr → Prop
  | .bread r block => r ∈ liveRegs rest ∧ block.blockno start lh = target start lh phase r
  | .memmove dst src => dst ∈ liveRegs rest ∧ src ∈ liveRegs rest
  | .putHead r | .bwrite r => r ∈ liveRegs rest
  | .bunpin r => r = .dbuf ∧ .dbuf ∈ liveRegs rest ∧ .bunpin .dbuf ∉ rest ∧
      ∃ tail, phase = .installTrans tail
  | .brelse _ => True

theorem fits (start : BlockNo) (lh : List BlockNo) {n : Nat} {phase : LogOperations.Phase}
    {whole : List Instr}
    {i : Instr} {rest : List Instr} (from_ : script n phase = some whole)
    (suffix : i :: rest <:+ whole) :
    (liveRegs rest).Nodup ∧ Fits start lh phase rest i ∧
      ∀ tail, phase = .writeLog tail → (i = .bwrite .lbuf → .dbuf ∈ liveRegs rest) ∧
        ∀ more, rest = .bwrite .lbuf :: more → i = .memmove .lbuf .dbuf := by
  have rounds : (∃ tail, phase = .writeLog tail ∧ whole = logRound tail) ∨
      ((phase = .writeHead ∨ phase = .erase) ∧ whole = writeHead) ∨
      ∃ tail, phase = .installTrans tail ∧ whole = installRound tail := by
    cases phase <;> simp_all [script]
  rcases rounds with ⟨tail, rfl, rfl⟩ | ⟨head, rfl⟩ | ⟨tail, rfl, rfl⟩
  · simp only [logRound, List.suffix_cons_iff, List.cons.injEq, List.suffix_nil, reduceCtorEq,
      or_false] at suffix
    rcases suffix with ⟨rfl, rfl⟩ | ⟨rfl, rfl⟩ | ⟨rfl, rfl⟩ | ⟨rfl, rfl⟩ | ⟨rfl, rfl⟩ |
      ⟨rfl, rfl⟩ <;> simp [liveRegs, Fits, target, Target.blockno]
  · simp only [writeHead, List.suffix_cons_iff, List.cons.injEq, List.suffix_nil, reduceCtorEq,
      or_false] at suffix
    rcases head with rfl | rfl <;>
      rcases suffix with ⟨rfl, rfl⟩ | ⟨rfl, rfl⟩ | ⟨rfl, rfl⟩ | ⟨rfl, rfl⟩ <;>
        simp [liveRegs, Fits, target, Target.blockno]
  · simp only [installRound, List.suffix_cons_iff, List.cons.injEq, List.suffix_nil, reduceCtorEq,
      or_false] at suffix
    rcases suffix with ⟨rfl, rfl⟩ | ⟨rfl, rfl⟩ | ⟨rfl, rfl⟩ | ⟨rfl, rfl⟩ | ⟨rfl, rfl⟩ | ⟨rfl, rfl⟩ |
      ⟨rfl, rfl⟩ <;> simp [liveRegs, Fits, target, Target.blockno]

/-- The uses that a process has, or waits for, and does not give up. -/
def grasped (w : User) : List Use :=
  (match w.place with
    | .locking u | .asleep u => [u]
    | _ => []) ++ w.held

omit [DecidableEq Proc] [Fintype Proc] in
theorem grasped_running {w : User} (here : w.place = .running) : grasped w = w.held := by
  simp [grasped, here]

theorem grasped_wake (w : User) (b : Fin NBUF) : grasped (w.wake b) = grasped w := by
  obtain ⟨there, held⟩ := w
  cases there with
  | asleep u => by_cases this : u.buf = b <;> simp [User.wake, Place.wake, grasped, this]
  | _ => rfl

omit [Fintype Proc] in
/-- Only `bread` and `brelse` of a process change what it grasps, and none of the
others moves a process that runs. -/
theorem grasped_step (ring : Ringed c) (ok : BufferCache.step c e = .ok d)
    (read : ∀ device blockno, e ≠ .bread p device blockno) (relse : ∀ u, e ≠ .brelse p u) :
    grasped (d.user p) = grasped (c.user p) ∧
      ((c.user p).place = .running → (d.user p).place = .running) := by
  have moved {q : Proc} {w : User} (same : q = p → grasped w = grasped (c.user p) ∧
      ((c.user p).place = .running → w.place = .running)) :
      grasped (update c.user q w p) = grasped (c.user p) ∧
        ((c.user p).place = .running → (update c.user q w p).place = .running) := by
    by_cases this : q = p
    · subst this
      simpa using same rfl
    · simp [Ne.symm this]
  cases step_moves ring ok with
  | hits q device blockno b here hit =>
    exact moved fun this => absurd rfl (this ▸ read device blockno)
  | recycles q device blockno b here miss free =>
    exact moved fun this => absurd rfl (this ▸ read device blockno)
  | waits q u here =>
    refine moved fun this => ?_
    subst this
    simp [grasped, here]
  | locks q u here free =>
    refine moved fun this => ?_
    subst this
    simp [grasped, here]
  | reads q u here =>
    rw [fill_eq]
    refine moved fun this => ?_
    subst this
    simp [grasped, here]
  | releases q u here =>
    have other : p ≠ q := fun this => absurd rfl (this ▸ relse u)
    have still : (releasesleep c q u).user p = (c.user p).wake u.buf := update_of_ne other _ _
    rw [still, grasped_wake]
    exact ⟨rfl, fun running => by simp [User.wake, Place.wake, running]⟩
  | drops q u here =>
    rw [dropRef_eq]
    refine moved fun this => ?_
    subst this
    simp [grasped, here, Cache.setRefcnt]
  | killed q u here =>
    refine moved fun this => ?_
    subst this
    simp [grasped, here]
  | _ => exact ⟨rfl, id⟩

/-- A script under way: what is left of it, what the variables are for, and that
the block of the log is filled before it is written. -/
structure Working (dev : BitVec 32) (start : BlockNo) (s : State Proc) (p : Proc)
    (phase : LogOperations.Phase) (rest : List Instr) : Prop where
  whole : ∃ whole, script s.log.lh.length phase = some whole ∧ rest <:+ whole
  grasps : ((liveRegs rest).map (s.work p).reg).Subperm (grasped (s.cache.user p))
  names : ∀ r ∈ liveRegs rest, ((s.work p).reg r).dev = dev ∧
    ((s.work p).reg r).blockno = target start s.log.lh phase r
  copied : ∀ tail more, phase = .writeLog tail → rest = .bwrite .lbuf :: more →
    (s.cache.user p).place = .running ∧
      dataAt s ((s.work p).reg .lbuf) = s.latest (s.log.lh.getD tail 0)

/-- The logged blocks that are unpinned again. -/
def undone (n : Nat) : LogOperations.Phase → Option (List Instr) → Nat
  | .installTrans tail, some rest => if .bunpin .dbuf ∈ rest then tail else tail + 1
  | .installTrans tail, none => tail
  | .clear, _ => n
  | _, _ => 0

/-- The log, the pins and the process that commits. -/
structure Commits (dev : BitVec 32) (start : BlockNo) (s : State Proc) : Prop where
  nodup : s.log.lh.Nodup
  idle : ∀ p, (∀ phase, s.log.place p ≠ .commit phase) → (s.work p).todo = none
  between : (∀ p phase, s.log.place p ≠ .commit phase) → s.pinned = s.log.lh
  along : ∀ p phase, s.log.place p = .commit phase →
    s.pinned = s.log.lh.drop (undone s.log.lh.length phase (s.work p).todo)
  working : ∀ p phase rest, s.log.place p = .commit phase → (s.work p).todo = some rest →
    Working dev start s p phase rest

structure Inv (dev : BitVec 32) (start : BlockNo) (s : State Proc) : Prop where
  sound : LogCommits.Sound s.log
  coherent : Coherent s.cache
  pinning : Pinning dev s
  commits : Commits dev start s

variable {phase : LogOperations.Phase} {rest : List Instr}

omit [DecidableEq Proc] [Fintype Proc] in
/-- A process that runs holds what its script relies on. -/
theorem Working.held (h : Working dev start s p phase rest)
    (here : (s.cache.user p).place = .running) {r : Reg} (live : r ∈ liveRegs rest) :
    (s.work p).reg r ∈ (s.cache.user p).held := by
  rw [← grasped_running here]
  exact h.grasps.subset (List.mem_map_of_mem live)

omit [DecidableEq Proc] in
/-- What a process holds is in use, and valid if the process runs. -/
theorem held_valid (h : Coherent c) {u : Use} (mem : u ∈ (c.user p).held)
    (here : (c.user p).place = .running) :
    (c.buf u.buf).refcnt ≠ 0 ∧ (c.buf u.buf).valid = true := by
  refine ⟨fun free => ?_, h.filled.valid mem (here ▸ nofun)⟩
  exact (h.counted.unreferenced h.few free).1 p u (List.mem_append_right _ mem) rfl

omit [DecidableEq Proc] in
/-- Two processes hold different buffers. -/
theorem held_apart (h : Coherent c) {u v : Use} (hu : u ∈ (c.user p).held)
    (hv : v ∈ (c.user q).held) (same : u.buf = v.buf) : p = q :=
  h.locked.exclusive (List.mem_map_of_mem hu) (same ▸ List.mem_map_of_mem hv)

omit [DecidableEq Proc] in
theorem held_stands (h : Coherent c) {u : Use} (mem : u ∈ (c.user p).held) : Stands c u :=
  h.standing.used p u (List.mem_append_right _ mem)

/-- A quiet call of the cache, if it is no `bread` or `brelse` of the process that
commits, leaves its script as it is. -/
theorem Working.quiet (h : Working dev start s p phase rest) (coherent : Coherent s.cache)
    (still : quiet e) (ok : BufferCache.step s.cache e = .ok d)
    (read : ∀ device blockno, e ≠ .bread p device blockno) (relse : ∀ u, e ≠ .brelse p u) :
    Working dev start { s with cache := d } p phase rest := by
  obtain ⟨same, running⟩ := grasped_step coherent.ring ok read relse
  refine ⟨h.whole, same.symm ▸ h.grasps, h.names, fun tail more writing next => ?_⟩
  obtain ⟨here, data⟩ := h.copied tail more writing next
  refine ⟨running here, ?_⟩
  obtain ⟨whole, from_, suffix⟩ := h.whole
  obtain ⟨-, live, -⟩ := fits start s.log.lh from_ (next ▸ suffix)
  have mem := h.held here (r := .lbuf) (next ▸ live)
  obtain ⟨busy, full⟩ := held_valid coherent mem here
  exact (quiet_keeps coherent still ok busy full).2.trans data

omit [DecidableEq Proc] in
/-- So does a change of data by another process. -/
theorem Working.change (h : Working dev start s p phase rest) (coherent : Coherent s.cache)
    {u : Use} {data : Block} (mem : u ∈ (s.cache.user q).held) (other : q ≠ p) :
    Working dev start (changed dev s u data) p phase rest := by
  refine ⟨h.whole, h.grasps, h.names, fun tail more writing next => ?_⟩
  obtain ⟨here, copied⟩ := h.copied tail more writing next
  obtain ⟨whole, from_, suffix⟩ := h.whole
  have apart {v : Use} (mine : v ∈ (s.cache.user p).held) : v.buf ≠ u.buf := fun same =>
    other (held_apart coherent mem mine same.symm)
  obtain ⟨-, live, filled⟩ := fits start s.log.lh from_ (next ▸ suffix)
  have into := h.held here (r := .lbuf) (next ▸ live)
  have source := h.held here (r := .dbuf) (next ▸ (filled tail writing).1 rfl)
  obtain ⟨device, number⟩ := h.names .dbuf (next ▸ (filled tail writing).1 rfl)
  refine ⟨here, ?_⟩
  have kept : dataAt (changed dev s u data) ((s.work p).reg .lbuf) =
      dataAt s ((s.work p).reg .lbuf) := congrArg Buf.data (setBuf_of_ne _ (apart into))
  refine kept.trans (copied.trans ?_)
  obtain ⟨live, device', number'⟩ := held_stands coherent source
  have home : (s.cache.buf ((s.work p).reg .dbuf).buf).blockno = s.log.lh.getD tail 0 := by
    rw [number', number, writing]
    rfl
  simp only [changed]
  split
  next device_u =>
    refine (update_of_ne (fun same => apart source ?_) _ _).symm
    refine coherent.standing.apart _ _ (device'.symm ▸ live) ?_ (home.trans same)
    rw [device', device, device_u]
  next => rfl

theorem Commits.quiet (h : Commits dev start s) (coherent : Coherent s.cache) (still : quiet e)
    (ok : BufferCache.step s.cache e = .ok d)
    (read : ∀ p phase, s.log.place p = .commit phase →
      ∀ device blockno, e ≠ .bread p device blockno)
    (relse : ∀ p phase, s.log.place p = .commit phase → ∀ u, e ≠ .brelse p u) :
    Commits dev start { s with cache := d } :=
  ⟨h.nodup, h.idle, h.between, h.along, fun p phase rest here todo =>
    (h.working p phase rest here todo).quiet coherent still ok (read p phase here)
      (relse p phase here)⟩

/-- A quiet call of the cache by a process that does not commit, or inside a
function of the cache. -/
theorem Inv.quiet (procs : Fintype.card Proc ≤ NPROC) (h : Inv dev start s) (still : quiet e)
    (proper : BufferCache.Proper s.cache e) (ok : onCache s e = .ok t)
    (read : ∀ p phase, s.log.place p = .commit phase →
      ∀ device blockno, e ≠ .bread p device blockno)
    (relse : ∀ p phase, s.log.place p = .commit phase → ∀ u, e ≠ .brelse p u) :
    Inv dev start t := by
  obtain ⟨d, went, rfl⟩ := onCache_ok.mp ok
  have pins := quiet_pins h.coherent still went
  exact ⟨h.sound, coherent_next procs h.coherent proper went fun b => pins ▸ h.pinning.le_one b,
    h.pinning.quiet h.coherent still went, h.commits.quiet h.coherent still went read relse⟩

theorem Inv.change (procs : Fintype.card Proc ≤ NPROC) (h : Inv dev start s) {u : Use}
    {data : Block} (mem : u ∈ (s.cache.user p).held) (free : ∀ phase, s.log.place p ≠ .commit phase)
    (ok : put dev s p u data = .ok t) : Inv dev start t := by
  obtain ⟨here, rfl⟩ := put_ok ok
  have step_ : BufferCache.step s.cache (.change p u data) =
      .ok (s.cache.setBuf u.buf { s.cache.buf u.buf with data := data }) := by
    simp [BufferCache.step, here]
  refine ⟨h.sound,
    coherent_next (e := .change p u data) procs h.coherent mem step_ h.pinning.le_one,
    h.pinning.change h.coherent u data, ?_⟩
  refine ⟨h.commits.nodup, h.commits.idle, h.commits.between, h.commits.along, ?_⟩
  intro q phase rest here todo
  have other : p ≠ q := fun this => free phase (this ▸ here)
  exact (h.commits.working q phase rest here todo).change h.coherent mem other

/-- While a process commits, nothing else happens in the log but that processes
wait for it. -/
theorem log_alongside {l l' : LogOperations.Log Proc} {e : LogOperations.Event Proc}
    (sound : LogCommits.Sound l) (here : l.place p = .commit phase)
    (ok : LogOperations.step l e = .ok l') (other : e ≠ .commit p) :
    l'.lh = l.lh ∧ ∀ q phase, l'.place q = .commit phase ↔ l.place q = .commit phase := by
  have busy := sound.turns.busy p phase here
  have nobody {q : Proc} {op : Nat} {own : List BlockNo} (inside : l.place q = .inside op own) :
      False := by
    have idle := sound.counted.not_committing sound.turns inside
    simp [busy] at idle
  have aside {q : Proc} {there : LogOperations.Place} (was : ∀ phase, l.place q ≠ .commit phase)
      (now : ∀ phase, there ≠ .commit phase) (a : Proc) (phase : LogOperations.Phase) :
      update l.place q there a = .commit phase ↔ l.place a = .commit phase := by
    by_cases this : a = q
    · subst this
      simp [was, now]
    · simp [this]
  cases LogOperations.step_moves ok with
  | waits q free full =>
    refine ⟨rfl, aside (fun phase there => ?_) fun _ => nofun⟩
    rcases free with was | was <;> rw [was] at there <;> exact nomatch there
  | begins q free admits => simp [admits.1] at busy
  | logs q b op own inside => exact (nobody inside).elim
  | endsLast q op own inside => exact (nobody inside).elim
  | ends q op own inside => exact (nobody inside).elim
  | commits q phase' there more =>
    exact absurd (by rw [sound.turns.alone q p _ _ there here]) other
  | finishes q there => exact absurd (by rw [sound.turns.alone q p _ _ there here]) other
  | killed q there => exact ⟨rfl, aside (fun _ => there ▸ nofun) fun _ => nofun⟩
  | nothing q => exact ⟨rfl, fun _ _ => Iff.rfl⟩

omit [Fintype Proc] in
/-- While no process commits, one may come to, and nothing but `log_write` changes
the header. -/
theorem log_between {l l' : LogOperations.Log Proc} {e : LogOperations.Event Proc}
    (nobody : ∀ p phase, l.place p ≠ .commit phase) (ok : LogOperations.step l e = .ok l')
    (other : ∀ p b, e ≠ .logWrite p b) :
    l'.lh = l.lh ∧ ∀ q phase, l'.place q = .commit phase → phase = .start := by
  have moved {place : Proc → LogOperations.Place} {q : Proc} {there : LogOperations.Place}
      (was : ∀ a phase, place a ≠ .commit phase)
      (now : ∀ phase, there = .commit phase → phase = .start) (a : Proc)
      (phase : LogOperations.Phase) (here : update place q there a = .commit phase) :
      phase = .start := by
    by_cases this : a = q
    · subst this
      rw [update_self] at here
      exact now phase here
    · rw [update_of_ne this] at here
      exact absurd here (was a phase)
  have awake (a : Proc) (phase : LogOperations.Phase) : (l.place a).wake ≠ .commit phase :=
    fun here => nobody a phase (LogOperations.wake_eq_commit.mp here)
  cases LogOperations.step_moves ok with
  | waits q free full => exact ⟨rfl, moved nobody fun _ => nofun⟩
  | begins q free admits => exact ⟨rfl, moved nobody fun _ => nofun⟩
  | logs q b op own inside => exact absurd rfl (other q b)
  | endsLast q op own inside =>
    exact ⟨rfl, moved nobody fun _ there => (LogOperations.Place.commit.inj there).symm⟩
  | ends q op own inside => exact ⟨rfl, moved awake fun _ => nofun⟩
  | commits q phase there => exact absurd there (nobody q phase)
  | finishes q there => exact absurd there (nobody q _)
  | killed q there => exact ⟨rfl, moved nobody fun _ => nofun⟩
  | nothing q => exact ⟨rfl, fun q phase here => absurd here (nobody q phase)⟩

/-- A step in the log that neither logs a block nor belongs to `commit`. -/
theorem Inv.log (h : Inv dev start s) {e : LogOperations.Event Proc} (ok : onLog s e = .ok t)
    (write : ∀ p b, e ≠ .logWrite p b) (commit : ∀ p, e ≠ .commit p) : Inv dev start t := by
  obtain ⟨l, went, rfl⟩ := onLog_ok.mp ok
  refine ⟨LogCommits.sound_step h.sound went, h.coherent,
    ⟨h.pinning.nodup, h.pinning.kept, h.pinning.only, h.pinning.balance⟩, ?_⟩
  by_cases busy : ∃ p phase, s.log.place p = .commit phase
  · obtain ⟨p, phase, here⟩ := busy
    obtain ⟨same, places⟩ := log_alongside h.sound here went (commit p)
    refine ⟨same ▸ h.commits.nodup, fun q away => ?_, fun nobody => ?_, fun q phase here => ?_,
      fun q phase rest here todo => ?_⟩
    · exact h.commits.idle q fun phase there => away phase ((places q phase).mpr there)
    · exact absurd ((places p phase).mpr here) (nobody p phase)
    · simpa only [same] using h.commits.along q phase ((places q phase).mp here)
    · obtain ⟨whole, grasps, names, copied⟩ :=
        h.commits.working q phase rest ((places q phase).mp here) todo
      exact ⟨by simpa only [same] using whole, grasps, by simpa only [same] using names,
        by simpa only [same, dataAt] using copied⟩
  · have nobody : ∀ p phase, s.log.place p ≠ .commit phase := fun p phase here =>
      busy ⟨p, phase, here⟩
    obtain ⟨same, starts⟩ := log_between nobody went write
    have idle (q : Proc) : (s.work q).todo = none := h.commits.idle q (nobody q)
    refine ⟨same ▸ h.commits.nodup, fun q _ => idle q, fun _ => ?_, fun q phase here => ?_,
      fun q phase rest here todo => ?_⟩
    · exact (h.commits.between nobody).trans same.symm
    · obtain rfl := starts q phase here
      exact (h.commits.between nobody).trans same.symm
    · exact nomatch (idle q).symm.trans todo

theorem absorb_eq {lh : List BlockNo} {b : BlockNo} :
    LogOperations.absorb lh b = if b ∈ lh then lh else lh ++ [b] := by
  induction lh with
  | nil => simp [LogOperations.absorb]
  | cons c lh ih =>
    simp only [LogOperations.absorb]
    split
    next same => simp [same]
    next other =>
      have apart : b ≠ c := fun same => other same.symm
      rw [ih]
      by_cases mem : b ∈ lh <;> simp [mem, apart]

omit [Fintype Proc] in
theorem logWrite_log {l l' : LogOperations.Log Proc} {b : BlockNo}
    (ok : LogOperations.step l (.logWrite p b) = .ok l') :
    (∃ op own, l.place p = .inside op own) ∧ l'.lh = LogOperations.absorb l.lh b ∧
      ∀ q phase, l'.place q = .commit phase → l.place q = .commit phase := by
  simp only [LogOperations.step] at ok
  split at ok
  next op own here =>
    simp only [LogOperations.logWrite] at ok
    split at ok
    · cases ok
    split at ok
    · cases ok
    obtain rfl := Except.ok.inj ok
    refine ⟨⟨op, own, here⟩, rfl, fun q phase there => ?_⟩
    by_cases this : q = p
    · subst this
      simp at there
    · simpa [this] using there
  next => cases ok

theorem Inv.logWrite (procs : Fintype.card Proc ≤ NPROC) (h : Inv dev start s) {u : Use}
    (here : (s.cache.user p).place = .running) (mem : u ∈ (s.cache.user p).held)
    (device : u.dev = dev) (ok : logWrite s p u = .ok t) : Inv dev start t := by
  obtain ⟨r, went, rest⟩ := bind_eq_ok.mp ok
  obtain ⟨l, logged, rfl⟩ := onLog_ok.mp went
  obtain ⟨⟨op, own, inside⟩, lh, commits⟩ := logWrite_log logged
  have sound := LogCommits.sound_step h.sound logged
  have nobody (q : Proc) (phase : LogOperations.Phase) : s.log.place q ≠ .commit phase := by
    intro there
    have busy := h.sound.turns.busy q phase there
    have idle := h.sound.counted.not_committing h.sound.turns inside
    simp [busy] at idle
  have still (q : Proc) (phase : LogOperations.Phase) : l.place q ≠ .commit phase :=
    fun there => nobody q phase (commits q phase there)
  have pinned := h.commits.between nobody
  have nodup : l.lh.Nodup := lh ▸ LogOperations.absorb_nodup h.commits.nodup
  rw [absorb_eq] at lh
  split at rest
  next absent =>
    have new : blockAt s u ∉ s.log.lh := fun old =>
      absurd absent (List.idxOf_lt_length_of_mem old).ne
    rw [if_neg new] at lh
    obtain ⟨r, went, rest⟩ := bind_eq_ok.mp rest
    obtain ⟨d, pin, rfl⟩ := onCache_ok.mp went
    obtain rfl := Except.ok.inj rest
    obtain ⟨busy, full⟩ := held_valid h.coherent mem here
    obtain ⟨live, device', -⟩ := held_stands h.coherent mem
    rw [device] at live device'
    have fresh : blockAt s u ∉ s.pinned := pinned ▸ new
    have unpinned : s.cache.pins u.buf = 0 :=
      by_contra fun pins => fresh (h.pinning.only _ pins).2.2
    have proper : BufferCache.Proper s.cache (.bpin p u.buf) := by
      rw [BufferCache.Proper, device']
      exact live
    have shape := pin
    simp only [BufferCache.step, here] at shape
    obtain rfl := Except.ok.inj shape
    have coherent := coherent_next procs h.coherent proper pin fun b => by
      by_cases this : b = u.buf
      · subst this
        simp [unpinned]
      · simpa [this] using h.pinning.le_one b
    have pinning := h.pinning.pin (n := (s.cache.buf u.buf).refcnt + 1) device' full fresh
    refine ⟨sound, coherent, ⟨pinning.nodup, pinning.kept, pinning.only, pinning.balance⟩, nodup,
      fun q _ => h.commits.idle q (nobody q), fun _ => ?_,
      fun q phase there => absurd there (still q phase),
      fun q phase _ there => absurd there (still q phase)⟩
    rw [lh, ← pinned]
  next found =>
    have old : blockAt s u ∈ s.log.lh := by
      by_contra new
      exact found (List.idxOf_eq_length new)
    rw [if_pos old] at lh
    obtain rfl := Except.ok.inj rest
    refine ⟨sound, h.coherent,
      ⟨h.pinning.nodup, h.pinning.kept, h.pinning.only, h.pinning.balance⟩, nodup,
      fun q _ => h.commits.idle q (nobody q), fun _ => pinned.trans lh.symm,
      fun q phase there => absurd there (still q phase),
      fun q phase _ there => absurd there (still q phase)⟩

theorem script_start {n : Nat} {whole : List Instr} (from_ : script n phase = some whole) :
    liveRegs whole = [] ∧ (∀ more, whole ≠ .bwrite .lbuf :: more) ∧
      undone n phase (some whole) = undone n phase none := by
  cases phase with
  | writeLog tail =>
    simp only [script, Option.ite_none_right_eq_some] at from_
    obtain ⟨-, h⟩ := from_
    obtain rfl := Option.some.inj h
    simp [logRound, liveRegs, undone]
  | writeHead =>
    obtain rfl := Option.some.inj from_
    simp [writeHead, liveRegs, undone]
  | erase =>
    obtain rfl := Option.some.inj from_
    simp [writeHead, liveRegs, undone]
  | installTrans tail =>
    simp only [script, Option.ite_none_right_eq_some] at from_
    obtain ⟨-, h⟩ := from_
    obtain rfl := Option.some.inj h
    simp [installRound, liveRegs, undone]
  | _ => exact nomatch from_

omit [DecidableEq Proc] in
/-- Only the process that commits has something to show for it. -/
theorem Commits.mine (h : Commits dev start s) (sound : LogCommits.Sound s.log)
    (here : s.log.place p = .commit phase) (log : t.log = s.log)
    (others : ∀ q, q ≠ p → (t.work q).todo = (s.work q).todo)
    (along : t.pinned = s.log.lh.drop (undone s.log.lh.length phase (t.work p).todo))
    (working : ∀ rest, (t.work p).todo = some rest → Working dev start t p phase rest) :
    Commits dev start t := by
  have alone {q : Proc} {phase' : LogOperations.Phase} (there : t.log.place q = .commit phase') :
      q = p ∧ phase' = phase := by
    rw [log] at there
    obtain rfl := sound.turns.alone q p _ _ there here
    rw [here] at there
    exact ⟨rfl, (LogOperations.Place.commit.inj there).symm⟩
  refine ⟨log.symm ▸ h.nodup, fun q away => ?_, fun nobody => ?_, fun q phase' there => ?_,
    fun q phase' rest there todo => ?_⟩
  · have other : q ≠ p := fun this => away phase (by rw [log, this, here])
    exact (others q other).trans (h.idle q fun phase' there => away phase' (log ▸ there))
  · exact absurd (log.symm ▸ here) (nobody p phase)
  · obtain ⟨rfl, rfl⟩ := alone there
    rw [log]
    exact along
  · obtain ⟨rfl, rfl⟩ := alone there
    exact working rest todo

theorem Inv.begins (h : Inv dev start s) (here : s.log.place p = .commit phase)
    (idle : (s.work p).todo = none) {whole : List Instr}
    (from_ : script s.log.lh.length phase = some whole) :
    Inv dev start (s.setTodo p (some whole)) := by
  obtain ⟨dead, first, same⟩ := script_start from_
  have mine : ((s.setTodo p (some whole)).work p).todo = some whole := by simp [State.setTodo]
  refine ⟨h.sound, h.coherent,
    ⟨h.pinning.nodup, h.pinning.kept, h.pinning.only, h.pinning.balance⟩,
    h.commits.mine h.sound here rfl (fun q other => by simp [State.setTodo, other]) ?_ ?_⟩
  · rw [mine, same, ← idle]
    exact h.commits.along p phase here
  · intro rest todo
    obtain rfl := Option.some.inj (mine.symm.trans todo)
    refine ⟨⟨whole, from_, List.suffix_rfl⟩, ?_, ?_, fun _ more _ next => absurd next (first more)⟩
    · simp [dead]
    · simp [dead]

/-- The process that commits is at `place` next, and the others where they were. -/
structure Onward (pinned : List BlockNo) (l l' : LogOperations.Log Proc) (p : Proc) : Prop where
  nodup : l'.lh.Nodup
  others : ∀ q, q ≠ p → ∀ phase, l'.place q = .commit phase → l.place q = .commit phase
  away : (∀ phase, l'.place p ≠ .commit phase) → pinned = l'.lh
  along : ∀ phase, l'.place p = .commit phase →
    pinned = l'.lh.drop (undone l'.lh.length phase none)

omit [Fintype Proc] in
/-- What one step of `commit` in the log does, after the script for it, if there is
one. -/
theorem commitStep_onward {l : LogOperations.Log Proc} (p : Proc) {pinned : List BlockNo}
    {todo : Option (List Instr)} (nodup : l.lh.Nodup)
    (along : pinned = l.lh.drop (undone l.lh.length phase todo))
    (done : (todo = some [] ∧ ∃ whole, script l.lh.length phase = some whole) ∨
      (todo = none ∧ script l.lh.length phase = none)) :
    Onward pinned l (LogOperations.commitStep l p phase) p := by
  have others {q : Proc} {there : LogOperations.Place} (other : q ≠ p)
      {phase' : LogOperations.Phase} (here : update l.place p there q = .commit phase') :
      l.place q = .commit phase' := by
    rwa [update_of_ne other] at here
  have goes {next : LogOperations.Phase} {l' : LogOperations.Log Proc} (lh : l'.lh = l.lh)
      (place : l'.place = update l.place p (.commit next))
      (same : l.lh.drop (undone l.lh.length phase todo) =
        l.lh.drop (undone l.lh.length next none)) : Onward pinned l l' p := by
    refine ⟨lh ▸ nodup, fun q other phase' here => others other (place ▸ here), fun away => ?_,
      fun phase' here => ?_⟩
    · exact absurd (by rw [place, update_self]) (away next)
    · rw [place, update_self] at here
      obtain rfl := LogOperations.Place.commit.inj here
      rw [lh, along, same]
  cases phase with
  | start =>
    simp only [LogOperations.commitStep]
    split
    · exact goes rfl rfl rfl
    · exact goes rfl rfl rfl
  | writeLog tail =>
    simp only [LogOperations.commitStep]
    split
    · exact goes rfl rfl rfl
    · exact goes rfl rfl rfl
  | writeHead => exact goes rfl rfl rfl
  | installTrans tail =>
    simp only [script] at done
    simp only [LogOperations.commitStep]
    split
    next more =>
      simp only [if_pos more, reduceCtorEq, and_false, or_false] at done
      exact goes rfl rfl (by simp [done.1, undone])
    next last =>
      simp only [if_neg last, reduceCtorEq, exists_false, and_false, and_true, false_or] at done
      refine goes rfl rfl ?_
      rw [done]
      simp only [undone]
      rw [List.drop_of_length_le (by omega), List.drop_of_length_le le_rfl]
  | clear =>
    refine ⟨List.nodup_nil, fun q other phase' here => others other here, fun away => ?_,
      fun phase' here => ?_⟩
    · exact absurd (by simp [LogOperations.commitStep]) (away .erase)
    · simpa [undone, LogOperations.commitStep] using along
  | erase => exact goes rfl rfl rfl
  | finish =>
    refine ⟨nodup, fun q other phase' here => ?_, fun _ => along, fun phase' here => ?_⟩
    · simpa [LogOperations.commitStep, other] using here
    · simp [LogOperations.commitStep] at here

omit [Fintype Proc] in
theorem setTodo_same {todo : Option (List Instr)} (same : (s.work p).todo = todo) :
    s.setTodo p todo = s := by
  subst same
  simp [State.setTodo]

theorem Inv.advance (h : Inv dev start s) (here : s.log.place p = .commit phase)
    (done : ((s.work p).todo = some [] ∧ ∃ whole, script s.log.lh.length phase = some whole) ∨
      ((s.work p).todo = none ∧ script s.log.lh.length phase = none))
    (ok : onLog s (.commit p) = .ok t) : Inv dev start (t.setTodo p none) := by
  obtain ⟨l, went, rfl⟩ := onLog_ok.mp ok
  have shape := went
  simp only [LogOperations.step, here] at shape
  obtain rfl := Except.ok.inj shape
  have onward := commitStep_onward p h.commits.nodup (h.commits.along p phase here) done
  have alone {q : Proc} {phase' : LogOperations.Phase}
      (there : (LogOperations.commitStep s.log p phase).place q = .commit phase') : q = p := by
    by_contra other
    exact other (h.sound.turns.alone q p _ _ (onward.others q other phase' there) here)
  have mine : ((State.setTodo { s with log := LogOperations.commitStep s.log p phase } p
      none).work p).todo = none := by simp [State.setTodo]
  refine ⟨LogCommits.sound_step h.sound went, h.coherent,
    ⟨h.pinning.nodup, h.pinning.kept, h.pinning.only, h.pinning.balance⟩, onward.nodup,
    fun q away => ?_, fun nobody => onward.away (nobody p), fun q phase' there => ?_,
    fun q phase' rest there todo => ?_⟩
  · by_cases this : q = p
    · exact this ▸ mine
    · have idle := h.commits.idle q fun phase' there =>
        this (h.sound.turns.alone q p _ _ there here)
      simpa [State.setTodo, this] using idle
  · obtain rfl := alone there
    rw [mine]
    exact onward.along phase' there
  · obtain rfl := alone there
    cases mine.symm.trans todo

theorem undone_rest {n : Nat} {i : Instr} (other : i ≠ .bunpin .dbuf) :
    undone n phase (some rest) = undone n phase (some (i :: rest)) := by
  have same : Instr.bunpin .dbuf ∈ i :: rest ↔ Instr.bunpin .dbuf ∈ rest := by
    simp [Ne.symm other]
  cases phase <;> simp [undone, same]

/-- A script under way goes on to `rest`. -/
structure Goes (dev : BitVec 32) (start : BlockNo) (s t : State Proc) (p : Proc)
    (phase : LogOperations.Phase) (rest : List Instr) : Prop where
  log : t.log = s.log
  others : ∀ q, q ≠ p → (t.work q).todo = (s.work q).todo
  grasps : ((liveRegs rest).map (t.work p).reg).Subperm (grasped (t.cache.user p))
  names : ∀ r ∈ liveRegs rest, ((t.work p).reg r).dev = dev ∧
    ((t.work p).reg r).blockno = target start s.log.lh phase r
  copied : ∀ tail more, phase = .writeLog tail → rest = .bwrite .lbuf :: more →
    (t.cache.user p).place = .running ∧
      dataAt t ((t.work p).reg .lbuf) = t.latest (s.log.lh.getD tail 0)
  along : t.pinned = s.log.lh.drop (undone s.log.lh.length phase (some rest))

theorem Inv.goes (h : Inv dev start s) (here : s.log.place p = .commit phase) {i : Instr}
    (todo : (s.work p).todo = some (i :: rest)) (coherent : Coherent t.cache)
    (pinning : Pinning dev t) (goes : Goes dev start s t p phase rest) :
    Inv dev start (t.setTodo p (some rest)) := by
  obtain ⟨whole, from_, suffix⟩ := (h.commits.working p phase _ here todo).whole
  have mine : ((t.setTodo p (some rest)).work p).todo = some rest := by simp [State.setTodo]
  have reg : ((t.setTodo p (some rest)).work p).reg = (t.work p).reg := by simp [State.setTodo]
  refine ⟨goes.log.symm ▸ h.sound, coherent,
    ⟨pinning.nodup, pinning.kept, pinning.only, pinning.balance⟩,
    h.commits.mine h.sound here goes.log (fun q other => ?_) ?_ fun rest' next => ?_⟩
  · simpa [State.setTodo, other] using goes.others q other
  · rw [mine]
    exact goes.along
  · obtain rfl := Option.some.inj (mine.symm.trans next)
    refine ⟨⟨whole, ?_, (List.suffix_cons i rest).trans suffix⟩, ?_, fun r live => ?_,
      fun tail more writing next => ?_⟩
    · exact (congrArg (fun l => script l.lh.length phase) goes.log).trans from_
    · rw [reg]
      exact goes.grasps
    · rw [reg]
      have names := goes.names r live
      rwa [← goes.log] at names
    · rw [reg]
      have copied := goes.copied tail more writing next
      rwa [← goes.log] at copied

omit [DecidableEq Proc] in
/-- A buffer held for a pinned block has what was last put there. -/
theorem home_latest (h : Inv dev start s) {u : Use} (mem : u ∈ (s.cache.user p).held)
    {blockno : BlockNo} {number : BlockNo} (names : u.dev = dev ∧ u.blockno = number)
    (same : number = blockno) (logged : blockno ∈ s.pinned) :
    dataAt s u = s.latest blockno ∧ s.cache.pins u.buf = 1 := by
  obtain ⟨b, device, this, once, full, data⟩ := h.pinning.kept blockno logged
  obtain ⟨live, device', this'⟩ := held_stands h.coherent mem
  obtain rfl := h.coherent.standing.apart u.buf b (device'.symm ▸ live)
    (device'.trans (names.1.trans device.symm))
    (this'.trans (names.2.trans (same.trans this.symm)))
  exact ⟨data, once⟩

omit [Fintype Proc] in
theorem bread_user (ring : Ringed c) {device : BitVec 32} {blockno : BlockNo}
    (ok : BufferCache.step c (.bread p device blockno) = .ok d) :
    ∃ b, d.user p = ⟨.locking ⟨b, device, blockno⟩, (c.user p).held⟩ := by
  cases step_moves ring ok with
  | hits p device blockno b here hit => exact ⟨b, update_self _ _ _⟩
  | recycles p device blockno b here miss free => exact ⟨b, update_self _ _ _⟩

section Performing

variable (procs : Fintype.card Proc ≤ NPROC) (h : Inv dev start s)
  (here : s.log.place p = .commit phase) (running : (s.cache.user p).place = .running)

include procs h here running

theorem perform_bwrite {r : Reg} (todo : (s.work p).todo = some (.bwrite r :: rest))
    (ok : perform dev start s p (.bwrite r) = .ok t) :
    Inv dev start (t.setTodo p (some rest)) := by
  have working := h.commits.working p phase _ here todo
  obtain ⟨whole, from_, suffix⟩ := working.whole
  obtain ⟨-, live, before⟩ := fits start s.log.lh from_ suffix
  obtain ⟨d, went, rfl⟩ := onCache_ok.mp ok
  have proper : BufferCache.Proper s.cache (.bwrite p ((s.work p).reg r)) :=
    working.held running live
  have pins := quiet_pins h.coherent (e := .bwrite p ((s.work p).reg r)) trivial went
  obtain ⟨same, -⟩ := grasped_step (p := p) h.coherent.ring went (fun _ _ => nofun) fun _ => nofun
  refine h.goes here todo
    (coherent_next procs h.coherent proper went fun b => pins ▸ h.pinning.le_one b)
    (h.pinning.quiet h.coherent (e := .bwrite p ((s.work p).reg r)) trivial went)
    ⟨rfl, fun _ _ => rfl, same.symm ▸ working.grasps, working.names,
      fun tail more writing next => ?_, ?_⟩
  · exact nomatch (before tail writing).2 more next
  · rw [undone_rest (i := .bwrite r) nofun, ← todo]
    exact h.commits.along p phase here

theorem perform_brelse {r : Reg} (todo : (s.work p).todo = some (.brelse r :: rest))
    (ok : perform dev start s p (.brelse r) = .ok t) :
    Inv dev start (t.setTodo p (some rest)) := by
  have working := h.commits.working p phase _ here todo
  obtain ⟨whole, from_, suffix⟩ := working.whole
  obtain ⟨-, -, before⟩ := fits start s.log.lh from_ suffix
  obtain ⟨d, went, rfl⟩ := onCache_ok.mp ok
  have proper : BufferCache.Proper s.cache (.brelse p ((s.work p).reg r)) :=
    working.held running List.mem_cons_self
  have pins := quiet_pins h.coherent (e := .brelse p ((s.work p).reg r)) trivial went
  have coherent := coherent_next procs h.coherent proper went fun b => pins ▸ h.pinning.le_one b
  have pinning := h.pinning.quiet h.coherent (e := .brelse p ((s.work p).reg r)) trivial went
  have kept : ((liveRegs rest).map (s.work p).reg).Subperm
      ((s.cache.user p).held.erase ((s.work p).reg r)) := by
    have all := working.grasps.erase ((s.work p).reg r)
    rwa [grasped_running running, liveRegs, List.map_cons, List.erase_cons_head] at all
  have left : grasped (d.user p) = (s.cache.user p).held.erase ((s.work p).reg r) := by
    simp only [BufferCache.step, running] at went
    split at went
    next =>
      obtain rfl := Except.ok.inj went
      simp [releasesleep, Cache.setUser, Cache.setLock, grasped]
    next => cases went
  refine h.goes here todo coherent pinning ⟨rfl, fun _ _ => rfl, left.symm ▸ kept,
    fun r' live => working.names r' (List.mem_cons_of_mem r live),
    fun tail more writing next => ?_, ?_⟩
  · cases (before tail writing).2 more next
  · rw [undone_rest (i := .brelse r) (by simp), ← todo]
    exact h.commits.along p phase here

theorem perform_put {i : Instr} (todo : (s.work p).todo = some (i :: rest))
    (other : i ≠ .bunpin .dbuf) (same : liveRegs (i :: rest) = liveRegs rest) {r : Reg}
    (live : r ∈ liveRegs rest) {data : Block} (ok : put dev s p ((s.work p).reg r) data = .ok t)
    (copied : ∀ tail more, phase = .writeLog tail → rest = .bwrite .lbuf :: more →
      dataAt (changed dev s ((s.work p).reg r) data) ((s.work p).reg .lbuf) =
        (changed dev s ((s.work p).reg r) data).latest (s.log.lh.getD tail 0)) :
    Inv dev start (t.setTodo p (some rest)) := by
  have working := h.commits.working p phase _ here todo
  obtain ⟨-, rfl⟩ := put_ok ok
  have held : (s.work p).reg r ∈ (s.cache.user p).held := working.held running (same ▸ live)
  have step_ : BufferCache.step s.cache (.change p ((s.work p).reg r) data) =
      .ok (changed dev s ((s.work p).reg r) data).cache := by
    simp [BufferCache.step, running, changed]
  refine h.goes here todo (coherent_next (e := .change p ((s.work p).reg r) data) procs h.coherent
    held step_ h.pinning.le_one) (h.pinning.change h.coherent _ _)
    ⟨rfl, fun _ _ => rfl, same ▸ working.grasps, same ▸ working.names,
      fun tail more writing next => ⟨running, copied tail more writing next⟩, ?_⟩
  rw [undone_rest other, ← todo]
  exact h.commits.along p phase here

theorem perform_memmove {dst src : Reg}
    (todo : (s.work p).todo = some (.memmove dst src :: rest))
    (ok : perform dev start s p (.memmove dst src) = .ok t) :
    Inv dev start (t.setTodo p (some rest)) := by
  have working := h.commits.working p phase _ here todo
  obtain ⟨whole, from_, suffix⟩ := working.whole
  obtain ⟨-, ⟨into, source⟩, before⟩ := fits start s.log.lh from_ suffix
  refine perform_put procs h here running todo nofun rfl into ok fun tail more writing next => ?_
  obtain ⟨rfl, rfl⟩ := Instr.memmove.inj ((before tail writing).2 more next)
  have inside : tail < s.log.lh.length := by
    by_contra out
    simp [writing, script, out] at from_
  have logged : s.log.lh.getD tail 0 ∈ s.pinned := by
    rw [h.commits.along p phase here, todo, writing, List.getD_eq_getElem _ _ inside]
    exact List.getElem_mem inside
  obtain ⟨last, -⟩ := home_latest h (working.held running source) (working.names _ source)
    (by rw [writing]; rfl) logged
  obtain ⟨-, device, -⟩ := held_stands h.coherent (working.held running into)
  have put_ : dataAt (changed dev s ((s.work p).reg .lbuf) (dataAt s ((s.work p).reg .dbuf)))
      ((s.work p).reg .lbuf) = dataAt s ((s.work p).reg .dbuf) := by
    rw [dataAt, changed]
    simp only [setBuf_at]
  rw [put_, changed]
  simp only [device, (working.names _ into).1, if_true]
  by_cases same : s.log.lh.getD tail 0 = blockAt s ((s.work p).reg .lbuf)
  · rw [same, update_self]
  · rw [update_of_ne same, last]

theorem perform_putHead {r : Reg} (todo : (s.work p).todo = some (.putHead r :: rest))
    (ok : perform dev start s p (.putHead r) = .ok t) :
    Inv dev start (t.setTodo p (some rest)) := by
  obtain ⟨whole, from_, suffix⟩ := (h.commits.working p phase _ here todo).whole
  obtain ⟨-, live, before⟩ := fits start s.log.lh from_ suffix
  refine perform_put procs h here running todo nofun rfl live ok fun tail more writing next => ?_
  exact nomatch (before tail writing).2 more next

theorem perform_bunpin {r : Reg} (todo : (s.work p).todo = some (.bunpin r :: rest))
    (ok : perform dev start s p (.bunpin r) = .ok t) :
    Inv dev start (t.setTodo p (some rest)) := by
  have working := h.commits.working p phase _ here todo
  obtain ⟨whole, from_, suffix⟩ := working.whole
  obtain ⟨-, ⟨rfl, live, once, tail, rfl⟩, before⟩ :=
    fits start s.log.lh from_ suffix
  obtain ⟨r, went, shape⟩ := bind_eq_ok.mp ok
  obtain ⟨d, unpin, rfl⟩ := onCache_ok.mp went
  obtain rfl := Except.ok.inj shape
  have inside : tail < s.log.lh.length := by
    by_contra out
    simp [script, out] at from_
  have left : s.pinned = s.log.lh.getD tail 0 :: s.log.lh.drop (tail + 1) := by
    rw [h.commits.along p _ here, todo, List.getD_eq_getElem _ _ inside,
      ← List.drop_eq_getElem_cons inside]
    simp [undone]
  have held := working.held running (r := .dbuf) live
  obtain ⟨-, pinned⟩ := home_latest h held (working.names .dbuf live) rfl
    (left ▸ List.mem_cons_self)
  have proper : BufferCache.Proper s.cache (.bunpin p ((s.work p).reg .dbuf).buf) := by
    rw [BufferCache.Proper, pinned]
    exact one_ne_zero
  have shape := unpin
  simp only [BufferCache.step, running] at shape
  obtain rfl := Except.ok.inj shape
  have coherent := coherent_next procs h.coherent proper unpin fun b => by
    by_cases this : b = ((s.work p).reg .dbuf).buf
    · subst this
      simp [pinned]
    · simpa [this] using h.pinning.le_one b
  have pinning := h.pinning.unpin h.coherent
    (n := (s.cache.buf ((s.work p).reg .dbuf).buf).refcnt - 1) proper
  refine h.goes here todo coherent
    ⟨pinning.nodup, pinning.kept, pinning.only, pinning.balance⟩
    ⟨rfl, fun _ _ => rfl, working.grasps, working.names, fun _ _ writing => ?_, ?_⟩
  · cases writing
  obtain ⟨-, -, number⟩ := held_stands h.coherent held
  have home : (s.cache.buf ((s.work p).reg .dbuf).buf).blockno = s.log.lh.getD tail 0 :=
    number.trans (working.names .dbuf live).2
  simp only [home, left, List.erase_cons_head, undone, if_neg once]

/-- A variable gets its buffer. -/
theorem perform_bread (nonzero : dev ≠ 0) {r : Reg} {block : Target}
    (todo : (s.work p).todo = some (.bread r block :: rest))
    (ok : perform dev start s p (.bread r block) = .ok t) :
    Inv dev start (t.setTodo p (some rest)) := by
  have working := h.commits.working p phase _ here todo
  obtain ⟨whole, from_, suffix⟩ := working.whole
  obtain ⟨nodup, ⟨live, number⟩, before⟩ := fits start s.log.lh from_ suffix
  obtain ⟨r', went, shape⟩ := bind_eq_ok.mp ok
  obtain ⟨d, bread, rfl⟩ := onCache_ok.mp went
  obtain ⟨b, user⟩ := bread_user h.coherent.ring bread
  simp only [user] at shape
  obtain rfl := Except.ok.inj shape
  have pins := quiet_pins h.coherent
    (e := .bread p dev (block.blockno start s.log.lh)) trivial bread
  have coherent := coherent_next procs h.coherent (e := .bread p dev _) nonzero bread
    fun b => pins ▸ h.pinning.le_one b
  have pinning := h.pinning.quiet h.coherent (e := .bread p dev _) trivial bread
  set u : Use := ⟨b, dev, block.blockno start s.log.lh⟩ with hu
  have gone : r ∉ (liveRegs rest).erase r := nodup.not_mem_erase
  have reg : (((State.setReg { s with cache := d } p r u).work p).reg) =
      update (s.work p).reg r u := by simp [State.setReg]
  refine h.goes here todo coherent
    ⟨pinning.nodup, pinning.kept, pinning.only, pinning.balance⟩
    ⟨rfl, fun q other => by simp [State.setReg, other], ?_, fun r' mem => ?_,
      fun tail more writing next => (nomatch (before tail writing).2 more next), ?_⟩
  · rw [reg]
    have order : (liveRegs rest).Perm (r :: (liveRegs rest).erase r) := List.perm_cons_erase live
    have others : ((liveRegs rest).erase r).map (update (s.work p).reg r u) =
        ((liveRegs rest).erase r).map (s.work p).reg :=
      List.map_congr_left fun r' mem => update_of_ne (ne_of_mem_of_not_mem mem gone) _ _
    refine (order.map _).subperm.trans ?_
    have grasps := working.grasps
    rw [grasped_running running] at grasps
    rw [List.map_cons, update_self, others]
    have now : grasped (d.user p) = u :: (s.cache.user p).held := by simp [grasped, user]
    change List.Subperm _ (grasped (d.user p))
    rw [now, List.subperm_cons]
    exact grasps
  · rw [reg]
    by_cases this : r' = r
    · subst this
      rw [update_self]
      exact ⟨rfl, number⟩
    · rw [update_of_ne this]
      exact working.names r' ((List.mem_erase_of_ne this).mpr mem)
  · rw [undone_rest (i := .bread r block) nofun, ← todo]
    exact h.commits.along p phase here

end Performing

/-- Each step of `commit` keeps the invariant. -/
theorem Inv.commitStep (procs : Fintype.card Proc ≤ NPROC) (nonzero : dev ≠ 0)
    (h : Inv dev start s) (here : s.log.place p = .commit phase)
    (running : (s.cache.user p).place = .running)
    (ok : commitStep dev start s p phase = .ok t) : Inv dev start t := by
  unfold LoggedBuffers.commitStep at ok
  split at ok
  next i rest todo =>
    obtain ⟨r, went, rest_⟩ := bind_eq_ok.mp ok
    obtain rfl := Except.ok.inj rest_
    cases i with
    | bread r block => exact perform_bread procs h here running nonzero todo went
    | memmove dst src => exact perform_memmove procs h here running todo went
    | putHead r => exact perform_putHead procs h here running todo went
    | bwrite r => exact perform_bwrite procs h here running todo went
    | bunpin r => exact perform_bunpin procs h here running todo went
    | brelse r => exact perform_brelse procs h here running todo went
  next todo =>
    obtain ⟨r, went, rest_⟩ := bind_eq_ok.mp ok
    obtain rfl := Except.ok.inj rest_
    obtain ⟨whole, from_, -⟩ := (h.commits.working p phase [] here todo).whole
    exact h.advance here (Or.inl ⟨todo, whole, from_⟩) went
  next todo =>
    split at ok
    next whole from_ =>
      obtain rfl := Except.ok.inj ok
      exact h.begins here todo from_
    next ended =>
      have idle : (t.work p).todo = none := by
        obtain ⟨l, -, rfl⟩ := onLog_ok.mp ok
        exact todo
      rw [← setTodo_same idle]
      exact h.advance here (Or.inr ⟨todo, ended⟩) ok

theorem step_inv (procs : Fintype.card Proc ≤ NPROC) (nonzero : dev ≠ 0) (h : Inv dev start s)
    {e : LoggedBuffers.Event Proc} (proper : LoggedBuffers.Proper dev s e)
    (ok : LoggedBuffers.step dev start s e = .ok t) : Inv dev start t := by
  have away {p : Proc} (free : calls (s.log.place p) = true) (phase : LogOperations.Phase) :
      s.log.place p ≠ .commit phase := by
    intro here
    simp [here, calls] at free
  cases e with
  | beginOp p =>
    simp only [LoggedBuffers.step] at ok
    split at ok
    next => exact h.log ok (fun _ _ => nofun) fun _ => nofun
    next => exact nomatch ok
  | wakes p => exact h.log ok (fun _ _ => nofun) fun _ => nofun
  | endOp p =>
    simp only [LoggedBuffers.step] at ok
    split at ok
    next => exact h.log ok (fun _ _ => nofun) fun _ => nofun
    next => exact nomatch ok
  | bread p device blockno =>
    simp only [LoggedBuffers.step] at ok
    split at ok
    next free =>
      refine h.quiet procs (e := .bread p device blockno) trivial proper ok ?_ fun _ _ _ _ => nofun
      rintro q phase here device' blockno' same
      obtain ⟨rfl, -, -⟩ := BufferCache.Event.bread.inj same
      exact away free phase here
    next => exact nomatch ok
  | change p u data =>
    simp only [LoggedBuffers.step] at ok
    split at ok
    next free => exact h.change procs proper (away free) ok
    next => exact nomatch ok
  | logWrite p u =>
    simp only [LoggedBuffers.step] at ok
    split at ok
    next here => exact h.logWrite procs here proper.1 proper.2 ok
    next => exact nomatch ok
  | brelse p u =>
    simp only [LoggedBuffers.step] at ok
    split at ok
    next free =>
      refine h.quiet procs (e := .brelse p u) trivial proper ok (fun _ _ _ _ _ => nofun) ?_
      rintro q phase here v same
      obtain ⟨rfl, -⟩ := BufferCache.Event.brelse.inj same
      exact away free phase here
    next => exact nomatch ok
  | acquire p =>
    exact h.quiet procs (e := .acquire p) trivial trivial ok (fun _ _ _ _ _ => nofun)
      fun _ _ _ _ => nofun
  | read p =>
    exact h.quiet procs (e := .read p) trivial trivial ok (fun _ _ _ _ _ => nofun)
      fun _ _ _ _ => nofun
  | drop p =>
    exact h.quiet procs (e := .drop p) trivial trivial ok (fun _ _ _ _ _ => nofun)
      fun _ _ _ _ => nofun
  | commit p =>
    simp only [LoggedBuffers.step] at ok
    split at ok
    next phase here =>
      split at ok
      next running => exact h.commitStep procs nonzero here running ok
      next => exact nomatch ok
    next => exact nomatch ok
  | kill p =>
    obtain ⟨r, went, ok⟩ := bind_eq_ok.mp ok
    have killed := h.log went (fun _ _ => nofun) fun _ => nofun
    exact killed.quiet procs (e := .kill p) trivial trivial ok (fun _ _ _ _ _ => nofun)
      fun _ _ _ _ => nofun

/-- Before the first operation: any coherent cache without pins. -/
def booted (nlog : BitVec 32) (cache : Cache Proc Block) (latest : BlockNo → Block) :
    State Proc where
  log := LogOperations.initlog nlog
  cache := cache
  work := fun _ => ⟨none, fun _ => ⟨0, 0, 0⟩⟩
  latest := latest
  pinned := []
  bpins := fun _ => 0
  bunpins := fun _ => 0

omit [DecidableEq Proc] in
theorem booted_inv (nlog : BitVec 32) {cache : Cache Proc Block} (coherent : Coherent cache)
    (unpinned : ∀ b, cache.pins b = 0) (latest : BlockNo → Block) :
    Inv dev start (booted nlog cache latest) := by
  refine ⟨LogCommits.initlog_sound nlog, coherent, ⟨List.nodup_nil, nofun, ?_, ?_⟩,
    ⟨List.nodup_nil, fun _ _ => rfl, fun _ => rfl, fun _ _ => nofun, fun _ _ _ => nofun⟩⟩
  · exact fun b pinned => absurd (unpinned b) pinned
  · intro b
    change 0 = 0 + cache.pins b
    rw [unpinned]

/-- What the pins are for. -/
structure Preserved (dev : BitVec 32) (start : BlockNo) (s : State Proc) : Prop where
  once : s.log.lh.Nodup
  /-- Pinned are the blocks in the log that `install_trans` has not yet unpinned. -/
  between : (∀ p phase, s.log.place p ≠ .commit phase) → s.pinned = s.log.lh
  along : ∀ p phase, s.log.place p = .commit phase →
    s.pinned = s.log.lh.drop (undone s.log.lh.length phase (s.work p).todo)
  /-- Their buffers stay in the cache, with what was last put there. -/
  cached : ∀ blockno ∈ s.pinned, ∃ b, (s.cache.buf b).dev = dev ∧
    (s.cache.buf b).blockno = blockno ∧ (s.cache.buf b).refcnt ≠ 0 ∧
      (s.cache.buf b).valid = true ∧ (s.cache.buf b).data = s.latest blockno
  /-- Every `bpin` is undone once, or its block is pinned still. -/
  matched : ∀ b, s.bpins b = s.bunpins b +
    if (s.cache.buf b).dev = dev ∧ (s.cache.buf b).blockno ∈ s.pinned then 1 else 0
  /-- `write_log` writes what was last put in the buffer to the log. -/
  copies : ∀ p tail more t, s.log.place p = .commit (.writeLog tail) →
    (s.work p).todo = some (.bwrite .lbuf :: more) → step dev start s (.commit p) = .ok t →
      t.cache.disk (logBlock start tail) = t.latest (s.log.lh.getD tail 0)

theorem Inv.preserved (h : Inv dev start s) (nonzero : dev ≠ 0) : Preserved dev start s := by
  refine ⟨h.commits.nodup, h.commits.between, h.commits.along, fun blockno mem => ?_, fun b => ?_,
    fun p tail more t here todo ok => ?_⟩
  · obtain ⟨b, device, number, once, full, data⟩ := h.pinning.kept blockno mem
    exact ⟨b, device, number, pinned_busy h.coherent (by omega), full, data⟩
  · rw [h.pinning.balance b]
    split
    next logged =>
      obtain ⟨device, mem⟩ := logged
      obtain ⟨a, device', number, once, -⟩ := h.pinning.kept _ mem
      obtain rfl := h.coherent.standing.apart b a (device.symm ▸ nonzero)
        (device.trans device'.symm) number.symm
      rw [once]
    next other =>
      have unpinned : s.cache.pins b = 0 :=
        by_contra fun pinned => other (h.pinning.only b pinned).2
      rw [unpinned]
  · have working := h.commits.working p _ _ here todo
    obtain ⟨whole, from_, suffix⟩ := working.whole
    obtain ⟨-, live, -⟩ := fits start s.log.lh from_ suffix
    obtain ⟨running, data⟩ := working.copied tail more rfl rfl
    obtain ⟨-, -, number⟩ := held_stands h.coherent (working.held running (r := .lbuf) live)
    have place : (s.cache.buf ((s.work p).reg .lbuf).buf).blockno = logBlock start tail :=
      number.trans (working.names .lbuf live).2
    simp only [LoggedBuffers.step, here, if_pos running, LoggedBuffers.commitStep, todo] at ok
    obtain ⟨r, went, rest⟩ := bind_eq_ok.mp ok
    obtain rfl := Except.ok.inj rest
    obtain ⟨d, write, rfl⟩ := onCache_ok.mp went
    simp only [BufferCache.step, running] at write
    split at write
    next =>
      obtain rfl := Except.ok.inj write
      change update s.cache.disk _ (dataAt s ((s.work p).reg .lbuf)) (logBlock start tail) =
        s.latest (s.log.lh.getD tail 0)
      rw [place, update_self, data]
    next => cases write

/-- In every run of transactions over the cache, a block is in the log once; its
buffer stays in the cache with the contents last put there from its first
`log_write` until `install_trans` unpins it; every `bpin` is undone by one
`bunpin`; and `write_log` writes these contents. -/
theorem pinned_until_installed (dev : BitVec 32) (start : BlockNo) (nonzero : dev ≠ 0)
    (procs : Fintype.card Proc ≤ NPROC) (nlog : BitVec 32) (cache : Cache Proc Block)
    (coherent : Coherent cache) (unpinned : ∀ b, cache.pins b = 0) (latest : BlockNo → Block)
    (es : List (LoggedBuffers.Event Proc))
    (meets : Meets (step dev start) (Proper dev) (booted nlog cache latest) es) (t : State Proc)
    (ok : run (step dev start) (booted nlog cache latest) es = .ok t) :
    Preserved dev start t :=
  (run_invariant (fun _ _ _ inv proper ok => step_inv procs nonzero inv proper ok)
    (booted_inv nlog coherent unpinned latest) meets ok).preserved nonzero

/-- A process changes a block and logs it, and commits as far as the log block. -/
def oneWrite : List (LoggedBuffers.Event Unit) :=
  [.beginOp (), .bread () 1 50, .acquire (), .read (), .change () ⟨0, 1, 50⟩ (fun _ => 7),
    .logWrite () ⟨0, 1, 50⟩, .brelse () ⟨0, 1, 50⟩, .drop (), .endOp (), .commit (), .commit (),
    .commit (), .acquire (), .read (), .commit (), .acquire (), .read (), .commit ()]

/-- All blocks are zero. -/
def zeroed : State Unit :=
  booted 31 (fresh ⟨fun _ => none, fun _ => none⟩ (fun _ => 0) fun _ _ => 0) fun _ _ => 0

theorem pinned_until_installed_oneWrite :
    Yields (run (step 1 2) zeroed oneWrite) (Preserved 1 2) := by
  obtain ⟨t, ok, -⟩ : Yields (run (step 1 2) zeroed oneWrite) fun t => t.pinned = [50] := by
    decide +kernel
  exact ⟨t, ok, pinned_until_installed 1 2 (by decide) (by decide) 31 _ (fresh_coherent _ _ _)
    (fun _ => rfl) _ oneWrite (by decide +kernel) t ok⟩

end PinnedBuffers
