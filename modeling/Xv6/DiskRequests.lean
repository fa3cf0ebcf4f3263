import Mathlib.Data.List.Perm.Subperm
import Xv6.DiskQueue
import Xv6.Lib.LockHolders
import Xv6.Lib.Outcomes
import Xv6.Lib.Updates

/-!
# Requests to the disk

Every descriptor in use belongs to one request, whose chain is as the driver wrote it.
The chains that the device has not taken, those that it works on and those that the
interrupt has not looked at are the requests in flight, each once, however often the
16-bit indices have wrapped around.
-/

namespace DiskRequests

open DiskQueue EventRuns Function LockHolders Outcomes RingCounters Updates

variable {n : Nat} {s t : State n} {q : Request}

/-- The descriptors of a request. -/
structure Chain (free : Nat → Bool) (desc : Nat → Desc) (q : Request) : Prop where
  nodup : q.idx.Nodup
  low : ∀ i ∈ q.idx, i < NUM
  taken : ∀ i ∈ q.idx, free i = false
  first : (desc q.i0).flags &&& VRING_DESC_F_NEXT ≠ 0 ∧ (desc q.i0).next = q.i1
  second : (desc q.i1).flags &&& VRING_DESC_F_NEXT ≠ 0 ∧ (desc q.i1).next = q.i2
  third : (desc q.i2).flags &&& VRING_DESC_F_NEXT = 0 ∧ (desc q.i2).addr = .status q.i0

theorem idx_first (q : Request) : q.i0 ∈ q.idx := by simp [Request.idx]

theorem idx_second (q : Request) : q.i1 ∈ q.idx := by simp [Request.idx]

theorem idx_third (q : Request) : q.i2 ∈ q.idx := by simp [Request.idx]

theorem Chain.frame {free free' : Nat → Bool} {desc desc' : Nat → Desc} (chain : Chain free desc q)
    (free_ : ∀ i ∈ q.idx, free' i = false) (desc_ : ∀ i ∈ q.idx, desc' i = desc i) :
    Chain free' desc' q := by
  refine ⟨chain.nodup, chain.low, free_, ?_, ?_, ?_⟩
  · rw [desc_ _ (idx_first q)]
    exact chain.first
  · rw [desc_ _ (idx_second q)]
    exact chain.second
  · rw [desc_ _ (idx_third q)]
    exact chain.third

theorem Chain.apart {free : Nat → Bool} {desc : Nat → Desc} (chain : Chain free desc q) :
    q.i0 ≠ q.i1 ∧ q.i0 ≠ q.i2 ∧ q.i1 ≠ q.i2 := by
  have nodup := chain.nodup
  simp only [Request.idx, List.nodup_cons, List.mem_cons, List.not_mem_nil, or_false, not_or,
    not_false_eq_true, List.nodup_nil, and_true] at nodup
  exact ⟨nodup.1.1, nodup.1.2, nodup.2⟩

theorem freeDesc_ok {i : Nat} (low : i < NUM) (taken : s.free i = false) :
    freeDesc s i = .ok (freed s i) := by
  rw [freeDesc, if_neg (by omega), if_neg (by simp [taken])]

/-- The chain of a request is freed, its three descriptors and no others. -/
theorem freeChain_ok (chain : Chain s.free s.desc q) :
    freeChain (NUM + 1) s q.i0 = .ok (freed (freed (freed s q.i0) q.i1) q.i2) := by
  obtain ⟨h01, h02, h12⟩ := chain.apart
  have free0 := freeDesc_ok (chain.low _ (idx_first q)) (chain.taken _ (idx_first q))
  have free1 : freeDesc (freed s q.i0) q.i1 = .ok (freed (freed s q.i0) q.i1) := by
    refine freeDesc_ok (chain.low _ (idx_second q)) ?_
    simp [freed, State.wakeup, update_of_ne h01.symm, chain.taken _ (idx_second q)]
  have free2 : freeDesc (freed (freed s q.i0) q.i1) q.i2 =
      .ok (freed (freed (freed s q.i0) q.i1) q.i2) := by
    refine freeDesc_ok (chain.low _ (idx_third q)) ?_
    simp [freed, State.wakeup, update_of_ne h02.symm, update_of_ne h12.symm,
      chain.taken _ (idx_third q)]
  have desc1 : (freed s q.i0).desc q.i1 = s.desc q.i1 := update_of_ne h01.symm ..
  have desc2 : (freed (freed s q.i0) q.i1).desc q.i2 = s.desc q.i2 := by
    simp [freed, State.wakeup, update_of_ne h02.symm, update_of_ne h12.symm]
  rw [freeChain, free0]
  simp only [bind, Except.bind]
  rw [if_pos chain.first.1, chain.first.2, freeChain, free1, desc1]
  simp only [bind, Except.bind]
  rw [if_pos chain.second.1, chain.second.2, freeChain, free2, desc2]
  simp only [bind, Except.bind]
  rw [if_neg (by simp [chain.third.1])]
  rfl

theorem allocDesc_some {i : Nat} (h : allocDesc s = some (i, t)) :
    i < NUM ∧ s.free i = true ∧ t = { s with free := update s.free i false } := by
  obtain ⟨j, found, same⟩ := Option.map_eq_some_iff.mp h
  cases same
  exact ⟨List.mem_range.mp (List.mem_of_find?_eq_some found), List.find?_some found, rfl⟩

/-- Descriptors that have been taken and are given back. -/
theorem back_one {i : Nat} (free : s.free i = true) :
    ∃ desc asleep, freed { s with free := update s.free i false } i =
      { s with desc := desc, asleep := asleep } ∧ ∀ j, s.free j = false → desc j = s.desc j := by
  have back : update (update s.free i false) i true = s.free := by
    rw [update_idem, ← free, update_eq_self]
  let u := freed { s with free := update s.free i false } i
  refine ⟨u.desc, u.asleep, ?_, ?_⟩
  · simp only [u, freed, State.wakeup, back]
  · intro j taken
    refine update_of_ne ?_ ..
    rintro rfl
    simp [free] at taken

theorem back_two {i j : Nat} (apart : j ≠ i) (freei : s.free i = true) (freej : s.free j = true) :
    ∃ desc asleep, freed (freed { s with free := update (update s.free i false) j false } i) j =
      { s with desc := desc, asleep := asleep } ∧ ∀ k, s.free k = false → desc k = s.desc k := by
  have back : update (update (update (update s.free i false) j false) i true) j true = s.free := by
    rw [update_comm apart.symm, update_idem, update_comm apart, update_idem, ← freei,
      update_eq_self, freei, ← freej, update_eq_self]
  let u := freed (freed { s with free := update (update s.free i false) j false } i) j
  refine ⟨u.desc, u.asleep, ?_, ?_⟩
  · simp only [u, freed, State.wakeup, back]
  · intro k taken
    have hi : k ≠ i := by
      rintro rfl
      simp [freei] at taken
    have hj : k ≠ j := by
      rintro rfl
      simp [freej] at taken
    simp only [u, freed, State.wakeup, update_of_ne hi, update_of_ne hj]

/-- Either three free descriptors are taken, or what was taken is given back. -/
theorem alloc3Desc_cases (s : State n) :
    (∃ desc asleep, alloc3Desc s = .ok (none, { s with desc := desc, asleep := asleep }) ∧
      ∀ i, s.free i = false → desc i = s.desc i) ∨
    ∃ i0 i1 i2, [i0, i1, i2].Nodup ∧ (∀ i ∈ [i0, i1, i2], i < NUM ∧ s.free i = true) ∧
      alloc3Desc s = .ok (some (i0, i1, i2), { s with
        free := update (update (update s.free i0 false) i1 false) i2 false }) := by
  unfold alloc3Desc
  rcases first : allocDesc s with _ | ⟨i0, s0⟩
  · exact .inl ⟨s.desc, s.asleep, rfl, fun i _ => rfl⟩
  · obtain ⟨low0, free0, rfl⟩ := allocDesc_some first
    simp only
    rcases second : allocDesc { s with free := update s.free i0 false } with _ | ⟨i1, s1⟩
    · obtain ⟨desc, asleep, back, same⟩ := back_one free0
      refine .inl ⟨desc, asleep, ?_, same⟩
      simp only [freeDesc_ok (s := { s with free := update s.free i0 false }) low0
        (update_self ..), back]
      rfl
    · obtain ⟨low1, free1, rfl⟩ := allocDesc_some second
      have h10 : i1 ≠ i0 := by
        rintro rfl
        simp at free1
      have free1 : s.free i1 = true := by simpa [update_of_ne h10] using free1
      simp only
      rcases third : allocDesc { s with free := update (update s.free i0 false) i1 false } with
        _ | ⟨i2, s2⟩
      · obtain ⟨desc, asleep, back, same⟩ := back_two h10 free0 free1
        refine .inl ⟨desc, asleep, ?_, same⟩
        have give0 : freeDesc { s with free := update (update s.free i0 false) i1 false } i0 =
            .ok (freed { s with free := update (update s.free i0 false) i1 false } i0) :=
          freeDesc_ok low0 (by simp [update_of_ne h10.symm])
        have give1 : freeDesc (freed { s with
            free := update (update s.free i0 false) i1 false } i0) i1 =
            .ok (freed (freed { s with
              free := update (update s.free i0 false) i1 false } i0) i1) :=
          freeDesc_ok low1 (by simp [freed, State.wakeup, update_of_ne h10])
        simp only [give0, bind, Except.bind, give1, back]
        rfl
      · obtain ⟨low2, free2, rfl⟩ := allocDesc_some third
        have h21 : i2 ≠ i1 := by
          rintro rfl
          simp at free2
        have h20 : i2 ≠ i0 := by
          rintro rfl
          simp [update_of_ne h21] at free2
        have free2 : s.free i2 = true := by
          simpa [update_of_ne h21, update_of_ne h20] using free2
        refine .inr ⟨i0, i1, i2, ?_, ?_, rfl⟩
        · simp [h10.symm, h20.symm, h21.symm]
        · simp [low0, low1, low2, free0, free1, free2]

/-- The lock is held by the process that works under it, if one does. -/
def Mutual (s : State n) : Prop := Exclusive Pc.holds Holder.proc s.pc s.lock

/-- No two calls are about one buffer. -/
def Bufs (s : State n) : Prop :=
  ∀ p p' b, (s.pc p).buf = some b → (s.pc p').buf = some b → p = p'

/-- Descriptors in use belong to one request each. -/
structure Descs (s : State n) : Prop where
  chain : ∀ p q, (s.pc p).request = some q → Chain s.free s.desc q
  buf : ∀ p q, (s.pc p).request = some q → (s.info q.i0).b = some q.call.b
  number : ∀ p q, (s.pc p).request = some q → s.number q.i0 = q.number
  apart : ∀ p p' q q' i, (s.pc p).request = some q → (s.pc p').request = some q' →
    i ∈ q.idx → i ∈ q'.idx → p = p'
  owned : ∀ i < NUM, s.free i = false → ∃ p q, (s.pc p).request = some q ∧ i ∈ q.idx

theorem request_buf {pc : Pc} (is : pc.request = some q) : pc.buf = some q.call.b := by
  cases pc with
  | idle => cases is
  | entering c => cases is
  | allocating c => cases is
  | publishing q' =>
    cases is
    rfl
  | waiting q' =>
    cases is
    rfl
  | sleeping q' =>
    cases is
    rfl

/-- What concerns the descriptors of requests is as before. -/
theorem Descs.same (descs : Descs s) (requests : ∀ p, (t.pc p).request = (s.pc p).request)
    (free : t.free = s.free) (desc : ∀ i, s.free i = false → t.desc i = s.desc i)
    (info : ∀ i, (t.info i).b = (s.info i).b) (number : t.number = s.number) : Descs t := by
  constructor
  · intro p q is
    rw [requests p] at is
    have chain := descs.chain p q is
    refine chain.frame ?_ fun i mem => desc i (chain.taken i mem)
    rw [free]
    exact chain.taken
  · intro p q is
    rw [requests p] at is
    rw [info]
    exact descs.buf p q is
  · intro p q is
    rw [requests p] at is
    rw [number]
    exact descs.number p q is
  · intro p p' q q' i is is'
    rw [requests p] at is
    rw [requests p'] at is'
    exact descs.apart p p' q q' i is is'
  · intro i low taken
    rw [free] at taken
    obtain ⟨p, q, is, mem⟩ := descs.owned i low taken
    exact ⟨p, q, by rw [requests p]; exact is, mem⟩

/-- The requests of the processes after one of them got request `q`. -/
theorem new_request {p p' : Fin n} {pc : Pc} {q' : Request} (pc_ : t.pc = update s.pc p pc)
    (after : pc.request = some q) (is : (t.pc p').request = some q') :
    (p' = p ∧ q' = q) ∨ (p' ≠ p ∧ (s.pc p').request = some q') := by
  rw [pc_] at is
  rcases update_cases (fun c : Pc => c.request = some q') is with ⟨rfl, new⟩ | old
  · rw [after] at new
    exact .inl ⟨rfl, (Option.some.inj new).symm⟩
  · exact .inr old

/-- A process gets a request with descriptors that were free. -/
theorem Descs.make (descs : Descs s) {p : Fin n} {pc : Pc} (before : (s.pc p).request = none)
    (pc_ : t.pc = update s.pc p pc) (after : pc.request = some q)
    (nodup : q.idx.Nodup) (fresh : ∀ i ∈ q.idx, i < NUM ∧ s.free i = true)
    (free : t.free = update (update (update s.free q.i0 false) q.i1 false) q.i2 false)
    (desc : t.desc = (format s q).desc) (info : t.info = (format s q).info)
    (number : t.number = (format s q).number) : Descs t := by
  have others (p' : Fin n) (other : p' ≠ p) : t.pc p' = s.pc p' := by rw [pc_, update_of_ne other]
  have self : t.pc p = pc := by rw [pc_, update_self]
  have outside (p' : Fin n) (q' : Request) (is : (s.pc p').request = some q') (i : Nat)
      (mem : i ∈ q'.idx) : i ∉ q.idx := by
    intro also
    have taken := (descs.chain p' q' is).taken i mem
    simp [(fresh i also).2] at taken
  have free_ (i : Nat) : t.free i = if i ∈ q.idx then false else s.free i := by
    rw [free]
    simp only [update_apply, Request.idx, List.mem_cons, List.not_mem_nil, or_false]
    split_ifs <;> simp_all
  have desc_ (i : Nat) (no : i ∉ q.idx) : t.desc i = s.desc i := by
    simp only [Request.idx, List.mem_cons, List.not_mem_nil, or_false, not_or] at no
    rw [desc]
    simp only [format, update_of_ne no.1, update_of_ne no.2.1, update_of_ne no.2.2]
  have old {p' : Fin n} {q' : Request} (is : (t.pc p').request = some q') :
      (p' = p ∧ q' = q) ∨ (p' ≠ p ∧ (s.pc p').request = some q') := new_request pc_ after is
  constructor
  · intro p' q' is
    rcases old is with ⟨rfl, rfl⟩ | ⟨-, is⟩
    · obtain ⟨h01, h02, h12⟩ : q'.i0 ≠ q'.i1 ∧ q'.i0 ≠ q'.i2 ∧ q'.i1 ≠ q'.i2 := by
        simpa [Request.idx, and_assoc] using nodup
      refine ⟨nodup, fun i mem => (fresh i mem).1, fun i mem => by rw [free_, if_pos mem], ?_, ?_,
        ?_⟩
      · rw [desc]
        simp only [format, update_of_ne h02, update_of_ne h01, update_self]
        exact ⟨by decide, trivial⟩
      · rw [desc]
        simp only [format, update_of_ne h12, update_self]
        refine ⟨?_, trivial⟩
        split <;> decide
      · rw [desc]
        simp only [format, update_self]
        exact ⟨by decide, trivial⟩
    · have chain := descs.chain p' q' is
      refine chain.frame (fun i mem => ?_) fun i mem => desc_ i (outside p' q' is i mem)
      rw [free_, if_neg (outside p' q' is i mem)]
      exact chain.taken i mem
  · intro p' q' is
    rcases old is with ⟨rfl, rfl⟩ | ⟨-, is⟩
    · rw [info]
      simp [format]
    · have apart : q'.i0 ≠ q.i0 := fun same =>
        outside p' q' is q'.i0 (idx_first q') (same ▸ idx_first q)
      rw [info]
      simp only [format, update_of_ne apart]
      exact descs.buf p' q' is
  · intro p' q' is
    rcases old is with ⟨rfl, rfl⟩ | ⟨-, is⟩
    · rw [number]
      simp [format]
    · have apart : q'.i0 ≠ q.i0 := fun same =>
        outside p' q' is q'.i0 (idx_first q') (same ▸ idx_first q)
      rw [number]
      simp only [format, update_of_ne apart]
      exact descs.number p' q' is
  · intro p' p'' q' q'' i is is' mem mem'
    rcases old is with ⟨rfl, rfl⟩ | ⟨-, is⟩
    · rcases old is' with ⟨rfl, rfl⟩ | ⟨-, is'⟩
      · rfl
      · exact absurd mem (outside p'' q'' is' i mem')
    · rcases old is' with ⟨rfl, rfl⟩ | ⟨-, is'⟩
      · exact absurd mem' (outside p' q' is i mem)
      · exact descs.apart p' p'' q' q'' i is is' mem mem'
  · intro i low taken
    by_cases mem : i ∈ q.idx
    · exact ⟨p, q, by rw [self]; exact after, mem⟩
    · rw [free_, if_neg mem] at taken
      obtain ⟨p', q', is, mem'⟩ := descs.owned i low taken
      have other : p' ≠ p := by
        rintro rfl
        rw [before] at is
        cases is
      exact ⟨p', q', by rw [others p' other]; exact is, mem'⟩

/-- A process gives its request up and the descriptors back. -/
theorem Descs.drop (descs : Descs s) {p : Fin n} {x : Pc} (before : (s.pc p).request = some q)
    (pc_ : t.pc = update s.pc p x) (after : x.request = none)
    (free : ∀ i, t.free i = if i ∈ q.idx then true else s.free i)
    (desc : ∀ i, i ∉ q.idx → t.desc i = s.desc i)
    (info : ∀ i, i ≠ q.i0 → (t.info i).b = (s.info i).b) (number : t.number = s.number) :
    Descs t := by
  have others (p' : Fin n) (other : p' ≠ p) : t.pc p' = s.pc p' := by rw [pc_, update_of_ne other]
  have self : t.pc p = x := by rw [pc_, update_self]
  have old {p' : Fin n} {q' : Request} (is : (t.pc p').request = some q') :
      p' ≠ p ∧ (s.pc p').request = some q' := by
    by_cases same : p' = p
    · subst same
      rw [self, after] at is
      cases is
    · rw [others p' same] at is
      exact ⟨same, is⟩
  have outside {p' : Fin n} {q' : Request} (other : p' ≠ p) (is : (s.pc p').request = some q')
      (i : Nat) (mem : i ∈ q'.idx) : i ∉ q.idx :=
    fun also => other (descs.apart p' p q' q i is before mem also)
  constructor
  · intro p' q' is
    obtain ⟨other, is⟩ := old is
    have chain := descs.chain p' q' is
    refine chain.frame (fun i mem => ?_) fun i mem => desc i (outside other is i mem)
    rw [free, if_neg (outside other is i mem)]
    exact chain.taken i mem
  · intro p' q' is
    obtain ⟨other, is⟩ := old is
    have apart : q'.i0 ≠ q.i0 := fun same =>
      outside other is q'.i0 (idx_first q') (same ▸ idx_first q)
    rw [info _ apart]
    exact descs.buf p' q' is
  · intro p' q' is
    obtain ⟨other, is⟩ := old is
    rw [number]
    exact descs.number p' q' is
  · intro p' p'' q' q'' i is is'
    exact descs.apart p' p'' q' q'' i (old is).2 (old is').2
  · intro i low taken
    by_cases mem : i ∈ q.idx
    · rw [free, if_pos mem] at taken
      cases taken
    · rw [free, if_neg mem] at taken
      obtain ⟨p', q', is, mem'⟩ := descs.owned i low taken
      have other : p' ≠ p := by
        rintro rfl
        rw [before] at is
        cases is
        exact mem mem'
      exact ⟨p', q', by rw [others p' other]; exact is, mem'⟩

/-- Published chains that the device has not taken. -/
def availed (s : State n) : List Nat :=
  window NUM s.avail.ring s.seen (span s.seen s.avail.idx)

/-- Finished chains that the interrupt has not looked at. -/
def pending (s : State n) : List Nat :=
  window NUM s.used.ring s.used_idx (span s.used_idx s.used.idx)

def flight (s : State n) : List Nat := availed s ++ (s.working ++ pending s)

/-- The head is that of a published request that has not been processed. -/
def Queued (s : State n) (h : Nat) : Prop :=
  ∃ p q, (s.pc p).request = some q ∧ (s.pc p).published = true ∧ q.i0 = h ∧
    s.disk q.call.b = true

structure Rings (s : State n) : Prop where
  nodup : (flight s).Nodup
  queued : ∀ h, h ∈ flight s ↔ Queued s h
  ready : ∀ p q, (s.pc p).request = some q → (s.pc p).published = false →
    s.avail.ring (slot NUM s.avail.idx) = q.i0 ∧ s.disk q.call.b = true
  status : ∀ h ∈ pending s, (s.info h).status = 0
  log : s.finished = s.processed ++ (pending s).map s.number
  once : s.finished.Nodup
  bound : ∀ r ∈ s.finished, r < s.made
  numbers : ∀ p q, (s.pc p).request = some q → q.number < s.made
  distinct : ∀ p p' q q', (s.pc p).request = some q → (s.pc p').request = some q' →
    q.number = q'.number → p = p'
  unfinished : ∀ p q, (s.pc p).request = some q → q.number ∈ s.finished →
    s.disk q.call.b = false ∨ q.i0 ∈ pending s
  done : ∀ p q, (s.pc p).request = some q → s.disk q.call.b = false → q.number ∈ s.processed

/-- What concerns the rings is as before. -/
structure SameRings (s t : State n) : Prop where
  avail : t.avail = s.avail
  used : t.used = s.used
  used_idx : t.used_idx = s.used_idx
  status : ∀ i, (t.info i).status = (s.info i).status
  disk : t.disk = s.disk
  seen : t.seen = s.seen
  working : t.working = s.working
  made : t.made = s.made
  number : t.number = s.number
  finished : t.finished = s.finished
  processed : t.processed = s.processed

/-- No request comes, and none goes that has not been processed. -/
theorem Rings.same (rings : Rings s) (same : SameRings s t)
    (back : ∀ p q, (t.pc p).request = some q →
      (s.pc p).request = some q ∧ (t.pc p).published = (s.pc p).published)
    (keeps : ∀ p q, (s.pc p).request = some q → s.disk q.call.b = true →
      (t.pc p).request = some q ∧ (t.pc p).published = (s.pc p).published) : Rings t := by
  have availed_ : availed t = availed s := by rw [availed, same.avail, same.seen, availed]
  have pending_ : pending t = pending s := by rw [pending, same.used, same.used_idx, pending]
  have flight_ : flight t = flight s := by
    rw [flight, availed_, pending_, same.working, flight]
  have queued (h : Nat) : Queued t h ↔ Queued s h := by
    constructor
    · rintro ⟨p, q, is, published, head, disk⟩
      obtain ⟨old, pub⟩ := back p q is
      exact ⟨p, q, old, pub ▸ published, head, by rwa [same.disk] at disk⟩
    · rintro ⟨p, q, is, published, head, disk⟩
      obtain ⟨new, pub⟩ := keeps p q is disk
      exact ⟨p, q, new, pub ▸ published, head, by rwa [same.disk]⟩
  constructor
  case nodup =>
    rw [flight_]
    exact rings.nodup
  case queued =>
    intro h
    rw [flight_, queued]
    exact rings.queued h
  case ready =>
    intro p q is published
    obtain ⟨old, pub⟩ := back p q is
    rw [same.avail, same.disk]
    exact rings.ready p q old (pub ▸ published)
  case status =>
    rw [pending_]
    intro h mem
    rw [same.status]
    exact rings.status h mem
  case log =>
    rw [same.finished, same.processed, pending_, same.number]
    exact rings.log
  case once =>
    rw [same.finished]
    exact rings.once
  case bound =>
    rw [same.finished, same.made]
    exact rings.bound
  case numbers =>
    intro p q is
    rw [same.made]
    exact rings.numbers p q (back p q is).1
  case distinct =>
    intro p p' q q' is is'
    exact rings.distinct p p' q q' (back p q is).1 (back p' q' is').1
  case unfinished =>
    intro p q is
    rw [same.finished, same.disk, pending_]
    exact rings.unfinished p q (back p q is).1
  case done =>
    intro p q is
    rw [same.disk, same.processed]
    exact rings.done p q (back p q is).1

theorem divides : NUM ∣ 2 ^ 16 := by decide

/-- Different numbers below `NUM` are few. -/
theorem length_le {l : List Nat} (nodup : l.Nodup) (low : ∀ i ∈ l, i < NUM) : l.length ≤ NUM := by
  have sub : l ⊆ List.range NUM := fun i mem => List.mem_range.mpr (low i mem)
  simpa using (nodup.subperm sub).length_le

theorem Queued.low (descs : Descs s) {h : Nat} (queued : Queued s h) : h < NUM := by
  obtain ⟨p, q, is, -, rfl, -⟩ := queued
  exact (descs.chain p q is).low _ (idx_first q)

theorem Queued.taken (descs : Descs s) {h : Nat} (queued : Queued s h) : s.free h = false := by
  obtain ⟨p, q, is, -, rfl, -⟩ := queued
  exact (descs.chain p q is).taken _ (idx_first q)

/-- The request that is published next is not in flight yet. -/
theorem Rings.notQueued (descs : Descs s) {p : Fin n} (is : (s.pc p).request = some q)
    (unpublished : (s.pc p).published = false) : ¬ Queued s q.i0 := by
  rintro ⟨p', q', is', published, head, -⟩
  have here := descs.apart p' p q' q q.i0 is' is (head ▸ idx_first q') (idx_first q)
  subst here
  rw [unpublished] at published
  cases published

/-- There is room in both rings for one more. -/
theorem Rings.room (rings : Rings s) (descs : Descs s) {h : Nat} (low : h < NUM)
    (new : h ∉ flight s) : (flight s).length < NUM := by
  refine length_le (List.nodup_cons.mpr ⟨new, rings.nodup⟩) ?_
  intro i mem
  rcases List.mem_cons.mp mem with rfl | mem
  · exact low
  · exact ((rings.queued i).mp mem).low descs

theorem Rings.fetches (rings : Rings s) (apart : s.seen ≠ s.avail.idx) :
    Rings { s with seen := s.seen + 1, working := s.avail.ring (slot NUM s.seen) :: s.working } := by
  let t : State n :=
    { s with seen := s.seen + 1, working := s.avail.ring (slot NUM s.seen) :: s.working }
  have taken : availed s = s.avail.ring (slot NUM s.seen) :: availed t := by
    simp only [availed]
    rw [← span_pred apart, window_cons]
  have perm : (flight t).Perm (flight s) := by
    simp only [flight, taken]
    exact List.perm_middle
  refine ⟨perm.nodup_iff.mpr rings.nodup, fun h => perm.mem_iff.trans (rings.queued h), rings.ready,
    rings.status, rings.log, rings.once, rings.bound, rings.numbers, rings.distinct,
    rings.unfinished, rings.done⟩

theorem Rings.publishes (rings : Rings s) (descs : Descs s) {p : Fin n}
    (at_ : s.pc p = .publishing q)
    (alone : ∀ p' q', (s.pc p').request = some q' → (s.pc p').published = false → p' = p) :
    Rings (publish s p q) := by
  have is : (s.pc p).request = some q := by rw [at_]; rfl
  have unpublished : (s.pc p).published = false := by rw [at_]; rfl
  have view (p' : Fin n) : ((publish s p q).pc p').request = (s.pc p').request := by
    by_cases same : p' = p
    · subst same
      simp only [publish, State.goTo, update_self, is]
      rfl
    · simp only [publish, State.goTo, update_of_ne same]
  have published (p' : Fin n) (other : p' ≠ p) :
      ((publish s p q).pc p').published = (s.pc p').published := by
    simp only [publish, State.goTo, update_of_ne other]
  have self : ((publish s p q).pc p).published = true := by
    simp only [publish, State.goTo, update_self]
    rfl
  have ready := rings.ready p q is unpublished
  have new : ¬ Queued s q.i0 := notQueued descs is unpublished
  have room := rings.room descs ((descs.chain p q is).low _ (idx_first q))
    (fun mem => new ((rings.queued _).mp mem))
  have short : span s.seen s.avail.idx < NUM := by
    have le : (availed s).length ≤ (flight s).length := by simp [flight]
    rw [availed, window_length] at le
    omega
  have availed_ : availed (publish s p q) = availed s ++ [q.i0] := by
    simp only [availed, publish, State.goTo]
    rw [span_succ (lt_of_le_of_lt short (by decide)), window_succ, add_span, ready.1]
  have pending_ : pending (publish s p q) = pending s := rfl
  have perm : (flight (publish s p q)).Perm (q.i0 :: flight s) := by
    rw [flight, availed_, pending_, flight, List.append_assoc]
    exact List.perm_middle
  have queued (h : Nat) : Queued (publish s p q) h ↔ h = q.i0 ∨ Queued s h := by
    constructor
    · rintro ⟨p', q', is', pub, rfl, disk⟩
      rw [view] at is'
      by_cases same : p' = p
      · subst same
        rw [is] at is'
        cases is'
        exact .inl rfl
      · exact .inr ⟨p', q', is', by rwa [published p' same] at pub, rfl, disk⟩
    · rintro (rfl | ⟨p', q', is', pub, rfl, disk⟩)
      · exact ⟨p, q, by rw [view, is], self, rfl, ready.2⟩
      · have other : p' ≠ p := by
          rintro rfl
          rw [unpublished] at pub
          cases pub
        exact ⟨p', q', by rw [view, is'], by rw [published p' other, pub], rfl, disk⟩
  constructor
  case nodup =>
    refine perm.nodup_iff.mpr (List.nodup_cons.mpr ⟨?_, rings.nodup⟩)
    exact fun mem => new ((rings.queued _).mp mem)
  case queued =>
    intro h
    rw [queued, perm.mem_iff, List.mem_cons, rings.queued]
  case ready =>
    intro p' q' is' pub
    rw [view] at is'
    by_cases same : p' = p
    · subst same
      rw [self] at pub
      cases pub
    · rw [published p' same] at pub
      exact absurd (alone p' q' is' pub) same
  case status => exact rings.status
  case log => exact rings.log
  case once => exact rings.once
  case bound => exact rings.bound
  case numbers =>
    intro p' q' is'
    rw [view] at is'
    exact rings.numbers p' q' is'
  case distinct =>
    intro p' p'' q' q'' is' is''
    rw [view] at is' is''
    exact rings.distinct p' p'' q' q'' is' is''
  case unfinished =>
    intro p' q' is'
    rw [view] at is'
    exact rings.unfinished p' q' is'
  case done =>
    intro p' q' is'
    rw [view] at is'
    exact rings.done p' q' is'

/-- Process `p` gets the new request `q`, which is not published yet. -/
structure Making (s t : State n) (p : Fin n) (q : Request) (pc : Pc) : Prop where
  before : (s.pc p).request = none
  buf : (s.pc p).buf = some q.call.b
  pc_ : t.pc = update s.pc p pc
  after : pc.request = some q
  unpublished : pc.published = false
  fresh : q.i0 < NUM ∧ s.free q.i0 = true
  number : q.number = s.made
  alone : ∀ p' q', (s.pc p').request = some q' → (s.pc p').published = true
  rest : SameRings (format s q) t

namespace Making

variable {p p' : Fin n} {pc : Pc} {q' : Request}

theorem others (making : Making s t p q pc) (other : p' ≠ p) : t.pc p' = s.pc p' := by
  rw [making.pc_, update_of_ne other]

theorem old (making : Making s t p q pc) (is : (t.pc p').request = some q') :
    (p' = p ∧ q' = q) ∨ (p' ≠ p ∧ (s.pc p').request = some q') :=
  new_request making.pc_ making.after is

theorem other (making : Making s t p q pc) (is : (s.pc p').request = some q') : p' ≠ p := by
  rintro rfl
  rw [making.before] at is
  cases is

theorem disk (making : Making s t p q pc) (bufs : Bufs s) (is : (s.pc p').request = some q') :
    t.disk q'.call.b = s.disk q'.call.b := by
  have apart : q'.call.b ≠ q.call.b := fun same =>
    making.other is (bufs p' p q.call.b (same ▸ request_buf is) making.buf)
  rw [making.rest.disk]
  exact update_of_ne apart ..

theorem on_disk (making : Making s t p q pc) : t.disk q.call.b = true := by
  rw [making.rest.disk]
  exact update_self ..

theorem notFlying (making : Making s t p q pc) (rings : Rings s) (descs : Descs s) :
    q.i0 ∉ flight s := by
  intro mem
  have taken := ((rings.queued _).mp mem).taken descs
  rw [making.fresh.2] at taken
  cases taken

theorem notPending (making : Making s t p q pc) (rings : Rings s) (descs : Descs s) {h : Nat}
    (mem : h ∈ pending s) : h ≠ q.i0 := by
  rintro rfl
  exact making.notFlying rings descs (List.mem_append_right _ (List.mem_append_right _ mem))

/-- The slot that is written lies outside the window, which leaves room. -/
theorem availed_eq (making : Making s t p q pc) (rings : Rings s) (descs : Descs s) :
    availed t = availed s := by
  have room := rings.room descs making.fresh.1 (making.notFlying rings descs)
  have short : span s.seen s.avail.idx < NUM := by
    have le : (availed s).length ≤ (flight s).length := by simp [flight]
    rw [availed, window_length] at le
    omega
  have stored := window_update (d := s.avail.ring) (a := s.seen) divides q.i0
    (le_refl (span s.seen s.avail.idx)) short
  rw [add_span] at stored
  rw [availed, making.rest.avail, making.rest.seen]
  exact stored

theorem pending_eq (making : Making s t p q pc) : pending t = pending s := by
  rw [pending, making.rest.used, making.rest.used_idx]
  rfl

theorem flight_eq (making : Making s t p q pc) (rings : Rings s) (descs : Descs s) :
    flight t = flight s := by
  rw [flight, making.availed_eq rings descs, making.pending_eq, making.rest.working]
  rfl

theorem queued (making : Making s t p q pc) (bufs : Bufs s) (h : Nat) :
    Queued t h ↔ Queued s h := by
  constructor
  · rintro ⟨p', q', is, published, head, on_⟩
    rcases making.old is with ⟨rfl, rfl⟩ | ⟨other, is⟩
    · rw [making.pc_, update_self, making.unpublished] at published
      cases published
    · exact ⟨p', q', is, by rwa [making.others other] at published, head,
        by rwa [making.disk bufs is] at on_⟩
  · rintro ⟨p', q', is, published, head, on_⟩
    have other := making.other is
    exact ⟨p', q', by rwa [making.others other], by rwa [making.others other], head,
      by rwa [making.disk bufs is]⟩

theorem ready (making : Making s t p q pc) (is : (t.pc p').request = some q')
    (published : (t.pc p').published = false) :
    t.avail.ring (slot NUM t.avail.idx) = q'.i0 ∧ t.disk q'.call.b = true := by
  rcases making.old is with ⟨rfl, rfl⟩ | ⟨other, is⟩
  · refine ⟨?_, making.on_disk⟩
    rw [making.rest.avail]
    exact update_self ..
  · rw [making.others other, making.alone p' q' is] at published
    cases published

theorem status (making : Making s t p q pc) (rings : Rings s) (descs : Descs s) {h : Nat}
    (mem : h ∈ pending t) : (t.info h).status = 0 := by
  rw [making.pending_eq] at mem
  rw [making.rest.status]
  simp only [format, update_of_ne (making.notPending rings descs mem)]
  exact rings.status h mem

theorem log (making : Making s t p q pc) (rings : Rings s) (descs : Descs s) :
    t.finished = t.processed ++ (pending t).map t.number := by
  have same : (pending s).map (format s q).number = (pending s).map s.number :=
    List.map_congr_left fun h mem => update_of_ne (making.notPending rings descs mem) ..
  rw [making.rest.finished, making.rest.processed, making.pending_eq, making.rest.number, same]
  exact rings.log

theorem numbers (making : Making s t p q pc) (rings : Rings s)
    (is : (t.pc p').request = some q') : q'.number < t.made := by
  rw [making.rest.made]
  rcases making.old is with ⟨rfl, rfl⟩ | ⟨-, is⟩
  · rw [making.number]
    exact Nat.lt_succ_self _
  · exact Nat.lt_succ_of_lt (rings.numbers p' q' is)

theorem distinct (making : Making s t p q pc) (rings : Rings s) {p'' : Fin n} {q'' : Request}
    (is : (t.pc p').request = some q') (is' : (t.pc p'').request = some q'')
    (same : q'.number = q''.number) : p' = p'' := by
  have number := making.number
  rcases making.old is with ⟨rfl, rfl⟩ | ⟨-, is⟩
  · rcases making.old is' with ⟨rfl, rfl⟩ | ⟨-, is'⟩
    · rfl
    · have := rings.numbers p'' q'' is'
      omega
  · rcases making.old is' with ⟨rfl, rfl⟩ | ⟨-, is'⟩
    · have := rings.numbers p' q' is
      omega
    · exact rings.distinct p' p'' q' q'' is is' same

theorem unfinished (making : Making s t p q pc) (rings : Rings s) (bufs : Bufs s)
    (is : (t.pc p').request = some q') (mem : q'.number ∈ t.finished) :
    t.disk q'.call.b = false ∨ q'.i0 ∈ pending t := by
  have number := making.number
  rw [making.rest.finished] at mem
  rcases making.old is with ⟨rfl, rfl⟩ | ⟨-, is⟩
  · have := rings.bound _ mem
    omega
  · rw [making.disk bufs is, making.pending_eq]
    exact rings.unfinished p' q' is mem

theorem done (making : Making s t p q pc) (rings : Rings s) (bufs : Bufs s)
    (is : (t.pc p').request = some q') (off : t.disk q'.call.b = false) :
    q'.number ∈ t.processed := by
  rcases making.old is with ⟨rfl, rfl⟩ | ⟨-, is⟩
  · rw [making.on_disk] at off
    cases off
  · rw [making.disk bufs is] at off
    rw [making.rest.processed]
    exact rings.done p' q' is off

/-- The rings after the step. -/
theorem rings (making : Making s t p q pc) (rings : Rings s) (descs : Descs s) (bufs : Bufs s) :
    Rings t where
  nodup := making.flight_eq rings descs ▸ rings.nodup
  queued h := by
    rw [making.flight_eq rings descs, making.queued bufs]
    exact rings.queued h
  ready _ _ is published := making.ready is published
  status _ mem := making.status rings descs mem
  log := making.log rings descs
  once := making.rest.finished ▸ rings.once
  bound r mem := by
    rw [making.rest.finished] at mem
    rw [making.rest.made]
    exact Nat.lt_succ_of_lt (rings.bound r mem)
  numbers _ _ is := making.numbers rings is
  distinct _ _ _ _ is is' same := making.distinct rings is is' same
  unfinished _ _ is mem := making.unfinished rings bufs is mem
  done _ _ is off := making.done rings bufs is off

end Making

/-- The device finishes a chain. -/
theorem Rings.finishes (rings : Rings s) (descs : Descs s) {h : Nat} (mem : h ∈ s.working) :
    Rings (finish s h) ∧ ∀ i, ((finish s h).info i).b = (s.info i).b := by
  have inFlight : h ∈ flight s := List.mem_append_right _ (List.mem_append_left _ mem)
  obtain ⟨p, q, is, published, rfl, on_⟩ := (rings.queued h).mp inFlight
  have chain := descs.chain p q is
  have info : (finish s q.i0).info = update s.info q.i0 { s.info q.i0 with status := 0 } := by
    simp only [finish, chain.first.2, chain.second.2, chain.third.2, writeStatus]
  have notPending : q.i0 ∉ pending s := by
    have nodup := (List.nodup_append.mp rings.nodup).2.1
    exact fun also => (List.nodup_append.mp nodup).2.2 _ mem _ also rfl
  have unfinished : q.number ∉ s.finished := by
    intro done
    rcases rings.unfinished p q is done with off | also
    · rw [on_] at off
      cases off
    · exact notPending also
  have short : span s.used_idx s.used.idx < NUM := by
    have low := length_le (List.nodup_cons.mpr ⟨notPending, ((List.nodup_append.mp
      (List.nodup_append.mp rings.nodup).2.1).2.1)⟩) (fun i here => by
        rcases List.mem_cons.mp here with rfl | here
        · exact chain.low _ (idx_first q)
        · exact ((rings.queued i).mp (List.mem_append_right _ (List.mem_append_right _
            here))).low descs)
    rw [List.length_cons, pending, window_length] at low
    omega
  have availed_ : availed (finish s q.i0) = availed s := rfl
  have pending_ : pending (finish s q.i0) = pending s ++ [q.i0] := by
    have stored := window_push (d := s.used.ring) (a := s.used_idx) divides q.i0 short
    rw [add_span] at stored
    simp only [pending, finish]
    rw [span_succ (lt_of_le_of_lt short (by decide)), stored]
  have perm : (flight (finish s q.i0)).Perm (flight s) := by
    rw [flight, availed_, pending_, flight]
    refine List.Perm.append_left _ ?_
    have out : (s.working.erase q.i0 ++ (pending s ++ [q.i0])).Perm
        (q.i0 :: (s.working.erase q.i0 ++ pending s)) := by
      rw [← List.append_assoc]
      exact List.perm_append_singleton ..
    refine out.trans ?_
    rw [← List.cons_append]
    exact List.Perm.append_right _ (List.perm_cons_erase mem).symm
  have number := descs.number p q is
  constructor
  · constructor
    case nodup => exact perm.nodup_iff.mpr rings.nodup
    case queued => exact fun h => perm.mem_iff.trans (rings.queued h)
    case ready => exact rings.ready
    case status =>
      rw [pending_, info]
      intro h' mem'
      by_cases same : h' = q.i0
      · rw [same, update_self]
      · rw [update_of_ne same]
        rcases List.mem_append.mp mem' with mem' | last
        · exact rings.status h' mem'
        · exact absurd (List.mem_singleton.mp last) same
    case log =>
      rw [pending_]
      simp only [finish, List.map_append, List.map_cons, List.map_nil, ← List.append_assoc]
      rw [← rings.log]
    case once =>
      simp only [finish, number]
      refine List.nodup_append.mpr ⟨rings.once, by simp, ?_⟩
      rintro r mem' r' last rfl
      exact unfinished (List.mem_singleton.mp last ▸ mem')
    case bound =>
      intro r mem'
      simp only [finish, number] at mem'
      rcases List.mem_append.mp mem' with mem' | last
      · exact rings.bound r mem'
      · rw [List.mem_singleton.mp last]
        exact rings.numbers p q is
    case numbers => exact rings.numbers
    case distinct => exact rings.distinct
    case unfinished =>
      intro p' q' is' done
      simp only [finish, number] at done
      rw [pending_]
      rcases List.mem_append.mp done with done | last
      · rcases rings.unfinished p' q' is' done with off | also
        · exact .inl off
        · exact .inr (List.mem_append_left _ also)
      · have here := rings.distinct p' p q' q is' is (List.mem_singleton.mp last)
        subst here
        obtain rfl : q' = q := Option.some.inj (is'.symm.trans is)
        exact .inr (List.mem_append_right _ (List.mem_singleton_self _))
    case done => exact rings.done
  · intro i
    rw [info]
    by_cases same : i = q.i0
    · rw [same, update_self]
    · rw [update_of_ne same]

/-- What the interrupt does with the chain of `q`, apart from the wakeup. -/
def handled (s : State n) (q : Request) (asleep : Fin n → Bool) : State n :=
  { s with
    disk := update s.disk q.call.b false, used_idx := s.used_idx + 1,
    processed := s.processed ++ [s.number q.i0], asleep := asleep }

/-- The next finished chain is that of the request `q` of process `p`. -/
structure Next (s : State n) (p : Fin n) (q : Request) : Prop where
  is : (s.pc p).request = some q
  published : (s.pc p).published = true
  pending : pending s = q.i0 ::
    window NUM s.used.ring (s.used_idx + 1) (span (s.used_idx + 1) s.used.idx)

namespace Next

variable {p p' : Fin n} {q' : Request} {asleep : Fin n → Bool}

theorem pending_handled (next : Next s p q) :
    DiskRequests.pending s = q.i0 :: DiskRequests.pending (handled s q asleep) := next.pending

/-- A buffer is in one request. -/
theorem mine (next : Next s p q) (bufs : Bufs s) (is : (s.pc p').request = some q')
    (same : q'.call.b = q.call.b) : p' = p ∧ q' = q := by
  have here := bufs p' p q.call.b (same ▸ request_buf is) (request_buf next.is)
  subst here
  exact ⟨rfl, Option.some.inj (is.symm.trans next.is)⟩

theorem head (next : Next s p q) (descs : Descs s) (is : (s.pc p').request = some q')
    (same : q'.i0 = q.i0) : q' = q := by
  have here := descs.apart p' p q' q q.i0 is next.is (same ▸ idx_first q') (idx_first q)
  subst here
  exact Option.some.inj (is.symm.trans next.is)

theorem perm (next : Next s p q) : (flight s).Perm (q.i0 :: flight (handled s q asleep)) := by
  rw [flight, flight, next.pending_handled]
  refine List.Perm.trans (List.Perm.append_left _ List.perm_middle) ?_
  exact List.perm_middle

theorem queued (next : Next s p q) (descs : Descs s) (bufs : Bufs s) (h : Nat) :
    Queued (handled s q asleep) h ↔ Queued s h ∧ h ≠ q.i0 := by
  constructor
  · rintro ⟨p', q', is, published, rfl, busy⟩
    have other : q'.call.b ≠ q.call.b := by
      intro same
      simp only [handled, same, update_self] at busy
      cases busy
    refine ⟨⟨p', q', is, published, rfl, ?_⟩, ?_⟩
    · simpa only [handled, update_of_ne other] using busy
    · intro same
      rw [next.head descs is same] at other
      exact other rfl
  · rintro ⟨⟨p', q', is, published, rfl, busy⟩, other⟩
    have apart : q'.call.b ≠ q.call.b := fun same => other (by rw [(next.mine bufs is same).2])
    exact ⟨p', q', is, published, rfl, by simpa only [handled, update_of_ne apart] using busy⟩

theorem mem_flight (next : Next s p q) (rings : Rings s) (descs : Descs s) (bufs : Bufs s)
    (h : Nat) : h ∈ flight (handled s q asleep) ↔ Queued (handled s q asleep) h := by
  have perm : (flight s).Perm (q.i0 :: flight (handled s q asleep)) := next.perm
  have nodup := List.nodup_cons.mp (perm.nodup_iff.mp rings.nodup)
  rw [next.queued descs bufs, ← rings.queued, perm.mem_iff, List.mem_cons]
  constructor
  · intro mem
    exact ⟨.inr mem, fun same => nodup.1 (same ▸ mem)⟩
  · rintro ⟨same | mem, other⟩
    · exact absurd same other
    · exact mem

/-- A request that is not published yet is of another buffer. -/
theorem disk (next : Next s p q) (bufs : Bufs s) (is : (s.pc p').request = some q')
    (unpublished : (s.pc p').published = false) :
    (handled s q asleep).disk q'.call.b = s.disk q'.call.b := by
  refine update_of_ne (fun same => ?_) ..
  rw [(next.mine bufs is same).1, next.published] at unpublished
  cases unpublished

theorem unfinished (next : Next s p q) (rings : Rings s) (descs : Descs s)
    (is : (s.pc p').request = some q') (mem : q'.number ∈ s.finished) :
    (handled s q asleep).disk q'.call.b = false ∨
      q'.i0 ∈ DiskRequests.pending (handled s q asleep) := by
  by_cases same : q'.call.b = q.call.b
  · left
    simp only [handled, same, update_self]
  · rcases rings.unfinished p' q' is mem with off | pending
    · left
      simpa only [handled, update_of_ne same] using off
    · rw [next.pending_handled] at pending
      rcases List.mem_cons.mp pending with here | pending
      · exact absurd (by rw [next.head descs is here]) same
      · exact .inr pending

theorem done (next : Next s p q) (rings : Rings s) (descs : Descs s) (bufs : Bufs s)
    (is : (s.pc p').request = some q') (off : (handled s q asleep).disk q'.call.b = false) :
    q'.number ∈ (handled s q asleep).processed := by
  by_cases same : q'.call.b = q.call.b
  · rw [(next.mine bufs is same).2, ← descs.number p q next.is]
    exact List.mem_append_right _ (List.mem_singleton_self _)
  · simp only [handled, update_of_ne same] at off
    exact List.mem_append_left _ (rings.done p' q' is off)

/-- The rings after the round of the interrupt. -/
theorem rings (next : Next s p q) (rings : Rings s) (descs : Descs s) (bufs : Bufs s) :
    Rings (handled s q asleep) where
  nodup := (List.nodup_cons.mp (next.perm.nodup_iff.mp rings.nodup)).2
  queued := next.mem_flight rings descs bufs
  ready p' q' is unpublished := by
    rw [next.disk bufs is unpublished]
    exact rings.ready p' q' is unpublished
  status h mem := by
    refine rings.status h ?_
    rw [next.pending_handled]
    exact List.mem_cons_of_mem _ mem
  log := by
    have log := rings.log
    rw [next.pending_handled, List.map_cons] at log
    simpa [handled] using log
  once := rings.once
  bound := rings.bound
  numbers := rings.numbers
  distinct := rings.distinct
  unfinished _ _ is mem := next.unfinished rings descs is mem
  done _ _ is off := next.done rings descs bufs is off

end Next

/-- The interrupt looks at the next finished chain, which is that of a request. -/
theorem Rings.processes (rings : Rings s) (descs : Descs s) (bufs : Bufs s)
    (apart : s.used_idx ≠ s.used.idx) :
    ∃ p q, (s.pc p).request = some q ∧ s.used.ring (slot NUM s.used_idx) = q.i0 ∧
      (s.info q.i0).status = 0 ∧ ∀ asleep, Rings (handled s q asleep) := by
  have pending_ : pending s = s.used.ring (slot NUM s.used_idx) ::
      window NUM s.used.ring (s.used_idx + 1) (span (s.used_idx + 1) s.used.idx) := by
    rw [pending, ← span_pred apart, window_cons]
  have first : s.used.ring (slot NUM s.used_idx) ∈ pending s := by
    rw [pending_]
    exact List.mem_cons_self ..
  have status := rings.status _ first
  obtain ⟨p, q, is, published, same, -⟩ :=
    (rings.queued _).mp (List.mem_append_right _ (List.mem_append_right _ first))
  rw [← same] at pending_ status
  have next : Next s p q := ⟨is, published, pending_⟩
  exact ⟨p, q, is, same.symm, status, fun asleep => next.rings rings descs bufs⟩

end DiskRequests
