import Mathlib.Data.List.Basic
import Mathlib.Logic.Function.Basic
import Xv6.Lib.Crashes
import Xv6.LogFormat

/-!
# Commit and recovery of the log

The write-ahead log of `log.c` over a disk and the buffer cache in front of
it. A buffer is named by the number of its block. Buffers that nobody refers
to may be recycled for other blocks at every `bread`, as an oracle says. A
crash keeps the disk and nothing else.

The result: a transaction is on the disk as a whole, or not at all, after
every crash of `commit` and every number of crashes of `recover_from_log`.
-/

namespace LogRecovery
open Crashes LogFormat Function

structure Kernel where
  disk : BlockNo → Block
  cache : BlockNo → Option Block
  refcnt : BlockNo → Nat
  /-- `log.lh`, the first `n` entries of `block`. -/
  lh : List BlockNo
  /-- For each later `bread`, which unreferenced buffers are gone by then. -/
  recycle : List (BlockNo → Bool)
  /-- Ghost: the block writes since the machine started, the last one first. -/
  written : List BlockNo

/-- What the buffer of a block holds, or would hold once it is read. -/
def data (s : Kernel) (b : BlockNo) : Block := (s.cache b).getD (s.disk b)

/-- The buffers left after recycling. A buffer with a reference stays. -/
def kept (s : Kernel) (b : BlockNo) : Option Block :=
  if s.refcnt b = 0 ∧ s.recycle.headD (fun _ => false) b = true then none else s.cache b

def bread (b : BlockNo) (s : Kernel) : Kernel :=
  { s with
    cache := update (kept s) b (some ((kept s b).getD (s.disk b)))
    refcnt := update s.refcnt b (s.refcnt b + 1)
    recycle := s.recycle.tail }

def brelse (b : BlockNo) (s : Kernel) : Kernel :=
  { s with refcnt := update s.refcnt b (s.refcnt b - 1) }

def bunpin (b : BlockNo) (s : Kernel) : Kernel :=
  { s with refcnt := update s.refcnt b (s.refcnt b - 1) }

/-- Change the data of a buffer that the caller holds. -/
def modify (b : BlockNo) (f : Block → Block) (s : Kernel) : Kernel :=
  { s with cache := update s.cache b (some (f (data s b))) }

/-- `memmove(dst->data, src->data, BSIZE)` between two held buffers. -/
def memmove (dst src : BlockNo) (s : Kernel) : Kernel := modify dst (fun _ => data s src) s

/-- The disk takes the data of the buffer, in one atomic step. -/
def store (b : BlockNo) (s : Kernel) : Kernel :=
  { s with disk := update s.disk b (data s b), written := b :: s.written }

def bwrite (b : BlockNo) : Crashing Kernel Unit := write (store b)

section Programs

variable (start : BlockNo)

/-- Copy committed blocks from log to their home location. -/
def installTrans (recovering : Bool) : Crashing Kernel Unit := do
  let n ← ask fun s => s.lh.length
  rounds n fun tail => do
    let dst ← ask fun s => s.lh.getD tail 0
    act (bread (logBlock start tail))
    act (bread dst)
    act (memmove dst (logBlock start tail))
    bwrite dst
    act (if recovering then id else bunpin dst)
    act (brelse (logBlock start tail))
    act (brelse dst)

/-- Read the log header from disk into the in-memory log header. -/
def readHead : Crashing Kernel Unit := do
  act (bread start)
  act fun s => { s with lh := loadHeader (data s start) }
  act (brelse start)

/-- Write the in-memory log header to disk. -/
def writeHead : Crashing Kernel Unit := do
  act (bread start)
  act fun s => modify start (storeHeader s.lh) s
  bwrite start
  act (brelse start)

/-- `log.lh.n = 0`. -/
def clearHead : Crashing Kernel Unit := act fun s => { s with lh := [] }

def recoverFromLog : Crashing Kernel Unit := do
  readHead start
  installTrans start true
  clearHead
  writeHead start

/-- Copy modified blocks from cache to log. -/
def writeLog : Crashing Kernel Unit := do
  let n ← ask fun s => s.lh.length
  rounds n fun tail => do
    let src ← ask fun s => s.lh.getD tail 0
    act (bread (logBlock start tail))
    act (bread src)
    act (memmove (logBlock start tail) src)
    bwrite (logBlock start tail)
    act (brelse src)
    act (brelse (logBlock start tail))

def commit : Crashing Kernel Unit := do
  let n ← ask fun s => s.lh.length
  if n > 0 then
    writeLog start
    writeHead start
    installTrans start false
    clearHead
    writeHead start

/-- The machine starts with the disk and an empty cache. -/
def boot (disk : BlockNo → Block) (recycle : List (BlockNo → Bool)) : Kernel where
  disk := disk
  cache := fun _ => none
  refcnt := fun _ => 0
  lh := []
  recycle := recycle
  written := []

/-- The disk after recoveries that each stop at a crash point. -/
def afterCrashes (disk : BlockNo → Block) :
    List (Nat × List (BlockNo → Bool)) → BlockNo → Block
  | [] => disk
  | (k, recycle) :: rest =>
    afterCrashes (stopped (recoverFromLog start) (boot disk recycle) k).disk rest

end Programs

/-- The cached copy of a block of the log is the block on the disk. -/
def Coherent (start : BlockNo) (size : Nat) (s : Kernel) : Prop :=
  ∀ b, InLog start size b → ∀ v, s.cache b = some v → v = s.disk b

/-- The buffers of `lh` are in the cache with contents `T`, and referred to. -/
def Pinned (T : BlockNo → Block) (lh : List BlockNo) (s : Kernel) : Prop :=
  ∀ b ∈ lh, s.cache b = some (T b) ∧ 0 < s.refcnt b

variable {start : BlockNo} {size : Nat} {lh : List BlockNo} {T : BlockNo → Block} {s : Kernel}
  {b : BlockNo}

theorem data_of_coherent (h : Coherent start size s) (hb : InLog start size b) :
    data s b = s.disk b := by
  cases hc : s.cache b with
  | none => simp [data, hc]
  | some v => simp [data, hc, h b hb v hc]

theorem data_of_pinned (h : Pinned T lh s) (hb : b ∈ lh) : data s b = T b := by
  simp [data, (h b hb).1]

theorem kept_some {v : Block} (h : kept s b = some v) : s.cache b = some v := by
  unfold kept at h
  split at h
  · exact nomatch h
  · exact h

theorem kept_of_referenced (h : 0 < s.refcnt b) : kept s b = s.cache b :=
  if_neg fun gone => by omega

theorem bread_coherent (h : Coherent start size s) : Coherent start size (bread b s) := by
  intro x hx v hv
  by_cases same : x = b
  · subst same
    simp only [bread, update_self, Option.some.injEq] at hv
    cases hk : kept s x with
    | none =>
      rw [hk] at hv
      exact hv.symm
    | some w =>
      rw [hk] at hv
      exact hv ▸ h x hx w (kept_some hk)
  · simp only [bread, update_of_ne same] at hv
    exact h x hx v (kept_some hv)

theorem bread_pinned (h : Pinned T lh s) : Pinned T lh (bread b s) := by
  intro x hx
  obtain ⟨cached, referenced⟩ := h x hx
  have here := kept_of_referenced referenced
  by_cases same : x = b
  · subst same
    simp [bread, here, cached]
  · simp [bread, update_of_ne same, here, cached, referenced]

theorem modify_pinned {f : Block → Block} (h : Pinned T lh s) (hb : b ∉ lh) :
    Pinned T lh (modify b f s) := by
  intro x hx
  have ne : x ≠ b := fun same => hb (same ▸ hx)
  simp only [modify, update_of_ne ne]
  exact h x hx

@[simp] theorem data_modify (f : Block → Block) : data (modify b f s) b = f (data s b) := by
  simp [data, modify]

/-- A changed buffer that is written agrees with its block again. -/
theorem store_modify_coherent {f : Block → Block} (h : Coherent start size s) :
    Coherent start size (store b (modify b f s)) := by
  intro x hx v hv
  by_cases same : x = b
  · subst same
    simp only [store, modify, update_self, Option.some.injEq] at hv
    simp [store, hv]
  · simp only [store, modify, update_of_ne same] at hv ⊢
    exact h x hx v hv

/-- A disk stands for contents `T` of the home blocks when its header names some
blocks, the log holds what `T` gives them, and every other home block is as in
`T` already. An empty header leaves nothing to redo. -/
structure Stands (start : BlockNo) (size : Nat) (T : BlockNo → Block) (lh : List BlockNo)
    (disk : BlockNo → Block) : Prop where
  header : loadHeader (disk start) = lh
  short : lh.length ≤ LOGSIZE
  fits : lh.length < size
  home : ∀ b ∈ lh, ¬ InLog start size b
  logged : ∀ i (h : i < lh.length), disk (logBlock start i) = T lh[i]
  rest : ∀ b, b ∉ lh → ¬ InLog start size b → disk b = T b

variable {disk : BlockNo → Block}

theorem Stands.ne_logBlock (h : Stands start size T lh disk) (hb : b ∈ lh) {i : Nat}
    (hi : i < lh.length) : b ≠ logBlock start i := by
  intro same
  have short := h.fits
  exact h.home b hb (same ▸ inLog_logBlock start (by omega))

theorem Stands.ne_start (h : Stands start size T lh disk) (hb : b ∈ lh) : b ≠ start := by
  intro same
  have short := h.fits
  exact h.home b hb (same ▸ inLog_start start (by omega))

/-- Installing one block redoes a part of what the disk stands for. -/
theorem Stands.install (h : Stands start size T lh disk) {i : Nat} (hi : i < lh.length) :
    Stands start size T lh (update disk lh[i] (T lh[i])) := by
  have mem : lh[i] ∈ lh := List.getElem_mem hi
  refine ⟨?_, h.short, h.fits, h.home, ?_, ?_⟩
  · rw [update_of_ne (h.ne_start mem).symm]
    exact h.header
  · intro j hj
    rw [update_of_ne (h.ne_logBlock mem hj).symm]
    exact h.logged j hj
  · intro x hx home
    have ne : x ≠ lh[i] := fun same => hx (same ▸ mem)
    rw [update_of_ne ne]
    exact h.rest x hx home

/-- Once all logged blocks are home, an empty header stands for the same. -/
theorem Stands.erase (h : Stands start size T lh disk) (installed : ∀ b ∈ lh, disk b = T b)
    (hb : Block) : Stands start size T [] (update disk start (storeHeader [] hb)) := by
  have room := h.fits
  refine ⟨?_, by simp, by simp; omega, by simp, by simp, ?_⟩
  · rw [update_self]
    exact loadHeader_storeHeader (by simp) hb
  · intro x _ home
    have ne : x ≠ start := fun same => home (same ▸ inLog_start start (by omega))
    rw [update_of_ne ne]
    by_cases mem : x ∈ lh
    · exact installed x mem
    · exact h.rest x mem home

/-- A round of `writeLog`: block `x` of the log gets what the pinned buffer `b`
holds, and both references taken for it are gone at its end. -/
def logged (x b : BlockNo) (s : Kernel) : Kernel :=
  brelse x (brelse b (store x (memmove x b (bread b (bread x s)))))

/-- A round of `installTrans`: block `b` gets what block `x` of the log holds. -/
def installed (recovering : Bool) (x b : BlockNo) (s : Kernel) : Kernel :=
  brelse b (brelse x ((if recovering then id else bunpin b)
    (store b (memmove b x (bread b (bread x s))))))

variable {x : BlockNo}

theorem logged_coherent (h : Coherent start size s) : Coherent start size (logged x b s) := by
  have here : Coherent start size (store x (memmove x b (bread b (bread x s)))) :=
    store_modify_coherent (bread_coherent (bread_coherent h))
  exact here

theorem logged_disk (pinned : Pinned T lh s) (hb : b ∈ lh) :
    (logged x b s).disk = update s.disk x (T b) := by
  have source := data_of_pinned (bread_pinned (b := b) (bread_pinned (b := x) pinned)) hb
  simp only [logged, brelse, store, memmove, data_modify, source]
  rfl

theorem logged_refcnt : (logged x b s).refcnt = s.refcnt := by
  simp [logged, brelse, store, memmove, modify, bread]

theorem logged_pinned (pinned : Pinned T lh s) (hx : x ∉ lh) : Pinned T lh (logged x b s) := by
  have moved := modify_pinned (f := fun _ => data (bread b (bread x s)) b)
    (bread_pinned (b := b) (bread_pinned (b := x) pinned)) hx
  intro y hy
  rw [logged_refcnt]
  exact ⟨(moved y hy).1, (pinned y hy).2⟩

theorem installed_coherent (recovering : Bool) (h : Coherent start size s) :
    Coherent start size (installed recovering x b s) := by
  have here : Coherent start size (store b (memmove b x (bread b (bread x s)))) :=
    store_modify_coherent (bread_coherent (bread_coherent h))
  cases recovering <;> exact here

theorem installed_disk (recovering : Bool) (h : Coherent start size s) (hx : InLog start size x) :
    (installed recovering x b s).disk = update s.disk b (s.disk x) := by
  have source := data_of_coherent (bread_coherent (b := b) (bread_coherent (b := x) h)) hx
  have same : (installed recovering x b s).disk
      = (store b (memmove b x (bread b (bread x s)))).disk := by
    cases recovering <;> rfl
  simp only [same, store, memmove, data_modify, source]
  rfl

section Loops

variable {W : List BlockNo → Prop}

/-- While blocks are installed: the disk stands for `T` throughout, and the
first `i` blocks are home. -/
structure Installing (start : BlockNo) (size : Nat) (T : BlockNo → Block) (lh : List BlockNo)
    (W : List BlockNo → Prop) (i : Nat) (t : Kernel) : Prop where
  coherent : Coherent start size t
  lh_eq : t.lh = lh
  stands : Stands start size T lh t.disk
  home : ∀ j (h : j < lh.length), j < i → t.disk lh[j] = T lh[j]
  traced : W t.written

theorem installing_round {recovering : Bool} {i : Nat} (hi : i < lh.length)
    (grow : ∀ b w, W w → W (b :: w)) (h : Installing start size T lh W i s) :
    Installing start size T lh W (i + 1)
      (installed recovering (logBlock start i) lh[i] s) := by
  have room := h.stands.fits
  have inside : InLog start size (logBlock start i) := inLog_logBlock start (by omega)
  have disk := installed_disk (b := lh[i]) recovering h.coherent inside
  rw [h.stands.logged i hi] at disk
  refine ⟨installed_coherent recovering h.coherent, ?_, ?_, ?_, ?_⟩
  · cases recovering <;> exact h.lh_eq
  · rw [disk]
    exact h.stands.install hi
  · intro j hj before
    rw [disk]
    by_cases same : lh[j] = lh[i]
    · rw [same, update_self]
    · rw [update_of_ne same]
      have other : j ≠ i := fun eq => same (by subst eq; rfl)
      exact h.home j hj (by omega)
  · cases recovering <;> exact grow _ _ h.traced

theorem installTrans_ensures {recovering : Bool} (grow : ∀ b w, W w → W (b :: w))
    (h : Installing start size T lh W 0 s) :
    Ensures (installTrans start recovering)
      (fun _ => Installing start size T lh W lh.length)
      (fun t => Stands start size T lh t.disk ∧ W t.written) s := by
  apply ensures_ask_bind
  rw [h.lh_eq]
  apply ensures_rounds _ h
  intro i t hi inv
  have entry : t.lh.getD i 0 = lh[i] := by simp [inv.lh_eq, hi]
  apply ensures_ask_bind
  rw [entry]
  apply ensures_act_bind
  apply ensures_act_bind
  apply ensures_act_bind
  apply ensures_write_bind ⟨inv.stands, inv.traced⟩
  apply ensures_act_bind
  apply ensures_act_bind
  apply ensures_act
  exact installing_round hi grow inv

/-- No write but to the log blocks has been made. -/
structure Untouched (start : BlockNo) (size : Nat) (old : BlockNo → Block) (t : Kernel) :
    Prop where
  header : t.disk start = old start
  home : ∀ b, ¬ InLog start size b → t.disk b = old b
  unwritten : start ∉ t.written

/-- While the log is written: the first `i` log blocks hold what the
transaction puts there. -/
structure Logging (start : BlockNo) (size : Nat) (old T : BlockNo → Block) (lh : List BlockNo)
    (i : Nat) (t : Kernel) : Prop where
  coherent : Coherent start size t
  pinned : Pinned T lh t
  lh_eq : t.lh = lh
  untouched : Untouched start size old t
  logged : ∀ j (h : j < lh.length), j < i → t.disk (logBlock start j) = T lh[j]

variable {old : BlockNo → Block}

theorem logging_round {i : Nat} (hi : i < lh.length) (short : lh.length ≤ LOGSIZE)
    (fits : lh.length < size) (out : ∀ b ∈ lh, ¬ InLog start size b)
    (h : Logging start size old T lh i s) :
    Logging start size old T lh (i + 1) (logged (logBlock start i) lh[i] s) := by
  have inside : InLog start size (logBlock start i) := inLog_logBlock start (by omega)
  have clean : logBlock start i ∉ lh := fun mem => out _ mem inside
  have apart : start ≠ logBlock start i := (logBlock_ne_start start (by omega)).symm
  have disk := logged_disk (x := logBlock start i) h.pinned (List.getElem_mem hi)
  refine ⟨logged_coherent h.coherent, logged_pinned h.pinned clean, h.lh_eq, ⟨?_, ?_, ?_⟩, ?_⟩
  · rw [disk, update_of_ne apart]
    exact h.untouched.header
  · intro b home
    have ne : b ≠ logBlock start i := fun same => home (same ▸ inside)
    rw [disk, update_of_ne ne]
    exact h.untouched.home b home
  · intro mem
    rcases List.mem_cons.mp mem with eq | mem
    · exact apart eq
    · exact h.untouched.unwritten mem
  · intro j hj before
    rw [disk]
    by_cases same : j = i
    · subst same
      exact update_self ..
    · have ne : logBlock start j ≠ logBlock start i := fun eq =>
        same (logBlock_inj start (by omega) (by omega) eq)
      rw [update_of_ne ne]
      exact h.logged j hj (by omega)

theorem writeLog_ensures (short : lh.length ≤ LOGSIZE) (fits : lh.length < size)
    (out : ∀ b ∈ lh, ¬ InLog start size b) (h : Logging start size old T lh 0 s) :
    Ensures (writeLog start) (fun _ => Logging start size old T lh lh.length)
      (Untouched start size old) s := by
  apply ensures_ask_bind
  rw [h.lh_eq]
  apply ensures_rounds _ h
  intro i t hi inv
  have entry : t.lh.getD i 0 = lh[i] := by simp [inv.lh_eq, hi]
  have same : Untouched start size old
      (memmove (logBlock start i) lh[i] (bread lh[i] (bread (logBlock start i) t))) :=
    ⟨inv.untouched.header, inv.untouched.home, inv.untouched.unwritten⟩
  apply ensures_ask_bind
  rw [entry]
  apply ensures_act_bind
  apply ensures_act_bind
  apply ensures_act_bind
  apply ensures_write_bind same
  apply ensures_act_bind
  apply ensures_act
  exact logging_round hi short fits out inv

end Loops

theorem writeHead_ensures (coherent : Coherent start size s) :
    Ensures (writeHead start)
      (fun _ t => Coherent start size t ∧ t.lh = s.lh ∧ t.written = start :: s.written ∧
        ∃ hb, t.disk = update s.disk start (storeHeader s.lh hb))
      (fun t => t.disk = s.disk ∧ t.written = s.written) s := by
  apply ensures_act_bind
  apply ensures_act_bind
  apply ensures_write_bind ⟨rfl, rfl⟩
  apply ensures_act
  have written : Coherent start size
      (store start (modify start (storeHeader s.lh) (bread start s))) :=
    store_modify_coherent (bread_coherent coherent)
  refine ⟨written, rfl, rfl, data (bread start s) start, ?_⟩
  simp only [brelse, store]
  exact congrArg (update s.disk start) (data_modify (storeHeader s.lh))

/-- The disk stands for `T`, redone or not. -/
def Redoable (start : BlockNo) (size : Nat) (T : BlockNo → Block) (disk : BlockNo → Block) :
    Prop := ∃ lh, Stands start size T lh disk

theorem eraseLog_ensures {W : List BlockNo → Prop} (grow : ∀ b w, W w → W (b :: w))
    (h : Installing start size T lh W lh.length s) :
    Ensures (clearHead >>= fun _ => writeHead start)
      (fun _ t => Stands start size T [] t.disk ∧ W t.written)
      (fun t => Redoable start size T t.disk ∧ W t.written) s := by
  apply ensures_act_bind
  have coherent : Coherent start size { s with lh := [] } := h.coherent
  apply (writeHead_ensures coherent).mono
  · rintro _ t ⟨-, -, written, hb, disk⟩
    have home : ∀ b ∈ lh, s.disk b = T b := by
      intro b mem
      obtain ⟨j, hj, rfl⟩ := List.mem_iff_getElem.mp mem
      exact h.home j hj hj
    rw [disk, written]
    exact ⟨h.stands.erase home hb, grow _ _ h.traced⟩
  · rintro t ⟨disk, written⟩
    rw [disk, written]
    exact ⟨⟨lh, h.stands⟩, h.traced⟩

theorem readHead_ensures {C : Kernel → Prop} (stands : Stands start size T lh s.disk)
    (coherent : Coherent start size s) :
    Ensures (readHead start) (fun _ => Installing start size T lh (fun _ => True) 0) C s := by
  apply ensures_act_bind
  apply ensures_act_bind
  apply ensures_act
  have room := stands.fits
  have read : data (bread start s) start = s.disk start :=
    data_of_coherent (bread_coherent coherent) (inLog_start start (by omega))
  have none_yet : ∀ j (h : j < lh.length), j < 0 → s.disk lh[j] = T lh[j] :=
    fun j _ before => absurd before (Nat.not_lt_zero j)
  refine ⟨bread_coherent coherent, ?_, stands, none_yet, trivial⟩
  simp only [brelse, read]
  exact stands.header

/-- Recovery keeps what the disk stands for at every crash point, and at its
end the home blocks hold it. -/
theorem recoverFromLog_ensures (h : Redoable start size T disk)
    (recycle : List (BlockNo → Bool)) :
    Ensures (recoverFromLog start) (fun _ t => Stands start size T [] t.disk)
      (fun t => Redoable start size T t.disk) (boot disk recycle) := by
  obtain ⟨lh, stands⟩ := h
  have empty : Coherent start size (boot disk recycle) := fun _ _ _ cached => nomatch cached
  apply ensures_bind
  apply (readHead_ensures stands empty).mono _ fun _ crashed => crashed
  intro _ t ready
  apply ensures_bind
  apply (installTrans_ensures (fun _ _ _ => trivial) ready).mono _
    fun u crashed => ⟨lh, crashed.1⟩
  intro _ u done
  exact (eraseLog_ensures (fun _ _ _ => trivial) done).mono (fun _ _ erased => erased.1)
    fun _ crashed => crashed.1

theorem recoverFromLog_ends (s : Kernel) : Ends (recoverFromLog start) s := by
  have bwrites (b : BlockNo) (t : Kernel) : Ends (bwrite b) t := ends_write _ t
  have reads (t : Kernel) : Ends (readHead start) t :=
    (ends_act _ t).bind fun _ u => (ends_act _ u).bind fun _ v => ends_act _ v
  have writes (t : Kernel) : Ends (writeHead start) t :=
    (ends_act _ t).bind fun _ u => (ends_act _ u).bind fun _ v =>
      (bwrites _ v).bind fun _ w => ends_act _ w
  have installs (t : Kernel) : Ends (installTrans start true) t := by
    apply (ends_ask _ t).bind
    intro n u
    apply ends_rounds
    intro i v
    exact (ends_ask _ v).bind fun _ w => (ends_act _ w).bind fun _ w =>
      (ends_act _ w).bind fun _ w => (ends_act _ w).bind fun _ w =>
      (bwrites _ w).bind fun _ w => (ends_act _ w).bind fun _ w =>
      (ends_act _ w).bind fun _ w => ends_act _ w
  exact (reads s).bind fun _ t => (installs t).bind fun _ u =>
    (ends_act _ u).bind fun _ v => writes v

theorem afterCrashes_redoable (crashes : List (Nat × List (BlockNo → Bool)))
    (h : Redoable start size T disk) : Redoable start size T (afterCrashes start disk crashes) := by
  induction crashes generalizing disk with
  | nil => exact h
  | cons crash rest ih =>
    have recovered := recoverFromLog_ensures h crash.2
    exact ih (recovered.stopped (fun _ _ done => ⟨[], done⟩) crash.1)

/-- A transaction to commit: the log on the disk is empty, the transaction's
blocks are pinned with their new contents, and the buffers of the log agree
with the disk. `log_write` keeps `n` below `log.size - 1` before it adds a block. -/
structure Ready (start : BlockNo) (size : Nat) (s : Kernel) : Prop where
  empty : s.disk start 0 = 0
  nonempty : 0 < size
  short : s.lh.length ≤ LOGSIZE
  fits : s.lh.length < size
  distinct : s.lh.Nodup
  home : ∀ b ∈ s.lh, ¬ InLog start size b
  pinned : ∀ b ∈ s.lh, s.cache b ≠ none ∧ 0 < s.refcnt b
  coherent : Coherent start size s
  fresh : s.written = []

/-- The home blocks as the transaction leaves them. -/
def updated (s : Kernel) (b : BlockNo) : Block := if b ∈ s.lh then data s b else s.disk b

theorem Ready.stands (h : Ready start size s) : Stands start size s.disk [] s.disk where
  header := loadHeader_zero h.empty
  short := Nat.zero_le _
  fits := h.nonempty
  home := by simp
  logged := by simp
  rest := fun _ _ _ => rfl

theorem Ready.logging (h : Ready start size s) :
    Logging start size s.disk (updated s) s.lh 0 s where
  coherent := h.coherent
  pinned := by
    intro b mem
    obtain ⟨cached, referenced⟩ := h.pinned b mem
    obtain ⟨v, hv⟩ := Option.ne_none_iff_exists'.mp cached
    exact ⟨by simp [updated, mem, data, hv], referenced⟩
  lh_eq := rfl
  untouched := ⟨rfl, fun _ _ => rfl, by simp [h.fresh]⟩
  logged := fun _ _ before => nomatch before

theorem Untouched.stands {t : Kernel} (h : Ready start size s)
    (same : Untouched start size s.disk t) : Stands start size s.disk [] t.disk := by
  refine ⟨?_, h.stands.short, h.stands.fits, by simp, by simp, fun b _ home => same.home b home⟩
  rw [same.header]
  exact h.stands.header

/-- With the header on the disk the transaction is there to be redone. -/
theorem Logging.committed {t : Kernel} (h : Ready start size s)
    (all : Logging start size s.disk (updated s) s.lh s.lh.length t) (hb : Block) :
    Stands start size (updated s) s.lh (update t.disk start (storeHeader s.lh hb)) := by
  have room := h.fits
  have short := h.short
  refine ⟨?_, h.short, h.fits, h.home, ?_, ?_⟩
  · rw [update_self]
    exact loadHeader_storeHeader h.short hb
  · intro i hi
    rw [update_of_ne (logBlock_ne_start start (by omega))]
    exact all.logged i hi hi
  · intro b other home
    have ne : b ≠ start := fun same => home (same ▸ inLog_start start h.nonempty)
    rw [update_of_ne ne, all.untouched.home b home, updated, if_neg other]

/-- What is on the disk wherever `commit` stops. -/
def Atomic (start : BlockNo) (size : Nat) (s t : Kernel) : Prop :=
  Redoable start size (if start ∈ t.written then updated s else s.disk) t.disk

theorem commit_ensures (h : Ready start size s) :
    Ensures (commit start) (fun _ => Atomic start size s) (Atomic start size s) s := by
  have before : ∀ t, Untouched start size s.disk t → Atomic start size s t := by
    intro t same
    rw [Atomic, if_neg same.unwritten]
    exact ⟨[], same.stands h⟩
  have after : ∀ t, Redoable start size (updated s) t.disk ∧ start ∈ t.written →
      Atomic start size s t := by
    rintro t ⟨redo, reached⟩
    rw [Atomic, if_pos reached]
    exact redo
  have grow : ∀ b w, start ∈ w → start ∈ b :: w := fun b w mem => List.mem_cons_of_mem b mem
  apply ensures_ask_bind
  split
  · apply ensures_bind
    apply (writeLog_ensures h.short h.fits h.home h.logging).mono _ before
    intro _ t all
    apply ensures_bind
    apply (writeHead_ensures all.coherent).mono
    · rintro _ u ⟨coherent, lh, written, hb, disk⟩
      have ready : Installing start size (updated s) s.lh (start ∈ ·) 0 u := by
        refine ⟨coherent, lh.trans all.lh_eq, ?_, ?_, ?_⟩
        · rw [disk, all.lh_eq]
          exact all.committed h hb
        · exact fun j _ before => absurd before (Nat.not_lt_zero j)
        · simp [written]
      apply ensures_bind
      apply (installTrans_ensures grow ready).mono _
        fun v crashed => after v ⟨⟨s.lh, crashed.1⟩, crashed.2⟩
      intro _ v done
      exact (eraseLog_ensures grow done).mono
        (fun _ w erased => after w ⟨⟨[], erased.1⟩, erased.2⟩) after
    · rintro u ⟨disk, written⟩
      apply before u
      exact ⟨disk ▸ all.untouched.header, disk ▸ all.untouched.home,
        written ▸ all.untouched.unwritten⟩
  · exact ensures_pure (before s h.logging.untouched)

/-- A transaction is atomic: whatever stops `commit` and the recoveries after
it, the recovery that ends leaves all new contents when the header was written
and all old ones when it was not. -/
theorem commit_crash_atomic (start : BlockNo) (size : Nat) (s : Kernel) (h : Ready start size s)
    (k : Nat) (crashes : List (Nat × List (BlockNo → Bool))) (last : Nat)
    (recycle : List (BlockNo → Bool)) (t : Kernel)
    (done : ended (recoverFromLog start)
      (boot (afterCrashes start (stopped (commit start) s k).disk crashes) recycle) last
        = some t) :
    (∀ b ∈ s.lh, t.disk b =
      if start ∈ (stopped (commit start) s k).written then data s b else s.disk b) ∧
      ∀ b, b ∉ s.lh → ¬ InLog start size b → t.disk b = s.disk b := by
  have cut : Atomic start size s (stopped (commit start) s k) :=
    (commit_ensures h).stopped (fun _ _ fine => fine) k
  obtain ⟨-, stands⟩ := (recoverFromLog_ensures (afterCrashes_redoable crashes cut)
    recycle).ended done
  constructor
  · intro b mem
    rw [stands.rest b List.not_mem_nil (h.home b mem)]
    split <;> simp [updated, mem]
  · intro b other home
    rw [stands.rest b List.not_mem_nil home]
    split <;> simp [updated, other]

/-- One block logged, and a crash right after the header was written. -/
def oneBlock : Kernel where
  disk := fun _ _ => 0
  cache := fun b => if b = 50 then some (fun _ => 7) else none
  refcnt := fun b => if b = 50 then 1 else 0
  lh := [50]
  recycle := []
  written := []

theorem oneBlock_ready : Ready 2 31 oneBlock where
  empty := rfl
  nonempty := by decide
  short := by decide
  fits := by decide
  distinct := by decide
  home := by
    intro b mem
    obtain rfl := List.mem_singleton.mp mem
    unfold InLog
    decide
  pinned := by
    intro b mem
    obtain rfl := List.mem_singleton.mp mem
    simp [oneBlock]
  coherent := by
    intro b inside v cached
    have ne : b ≠ 50 := by
      rintro rfl
      unfold InLog at inside
      revert inside
      decide
    simp only [oneBlock, if_neg ne] at cached
    exact nomatch cached
  fresh := rfl

theorem commit_crash_atomic_oneBlock :
    ∃ k t, ended (recoverFromLog 2) (boot (stopped (commit 2) oneBlock 2).disk []) k = some t ∧
      t.disk 50 = fun _ => 7 := by
  have recovers : Ends (recoverFromLog 2) (boot (stopped (commit 2) oneBlock 2).disk []) :=
    recoverFromLog_ends _
  obtain ⟨k, t, done⟩ := recovers.ended
  have all := (commit_crash_atomic 2 31 oneBlock oneBlock_ready 2 [] k [] t done).1 50
    (List.mem_singleton.mpr rfl)
  have reached : (2 : BlockNo) ∈ (stopped (commit 2) oneBlock 2).written := by decide
  rw [if_pos reached] at all
  exact ⟨k, t, done, all⟩

end LogRecovery
