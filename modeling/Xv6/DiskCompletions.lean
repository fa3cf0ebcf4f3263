import Xv6.DiskRequests

/-!
# Completions of disk requests

No step of the processes, the device and the interrupt loses a descriptor or a
completion, and none of them panics.
-/

namespace DiskCompletions

open DiskQueue DiskRequests EventRuns Function Outcomes RingCounters

variable {n : Nat} {s t : State n}

structure Inv (s : State n) : Prop where
  mutual_ : Mutual s
  bufs : Bufs s
  descs : Descs s
  rings : Rings s

/-- The step leads to a state with the invariant, or it is not possible. -/
def Fine : Except Stop (State n) → Prop
  | .ok t => Inv t
  | .error e => e = .spins ∨ e = .disabled

theorem proc_injective : Injective (Holder.proc : Fin n → Holder n) :=
  fun _ _ same => Holder.proc.inj same

/-- A request that is not published is in the hands of the holder of the lock. -/
theorem holds_of_unpublished {pc : Pc} {q : Request} (is : pc.request = some q)
    (unpublished : pc.published = false) : pc.holds = true := by
  cases pc with
  | idle => cases is
  | entering c => cases is
  | allocating c => cases is
  | publishing q' => rfl
  | waiting q' => cases unpublished
  | sleeping q' => cases unpublished

theorem same_view {A : Type} {f : Pc → A} {p : Fin n} {x : Pc} (pc_ : t.pc = update s.pc p x)
    (here : f x = f (s.pc p)) (q : Fin n) : f (t.pc q) = f (s.pc q) := by
  rw [pc_]
  by_cases same : q = p
  · rw [same, update_self, here]
  · rw [update_of_ne same]

theorem Bufs.goes (bufs : Bufs s) {p : Fin n} {x : Pc} (pc_ : t.pc = update s.pc p x)
    (buf : x.buf = (s.pc p).buf) : Bufs t := by
  intro q q' b is is'
  rw [same_view pc_ buf] at is is'
  exact bufs q q' b is is'

/-- A process goes on with the request that it has, or without one. -/
theorem Inv.goes (inv : Inv s) {p : Fin n} {x : Pc} (mutual_ : Mutual t)
    (pc_ : t.pc = update s.pc p x) (request : x.request = (s.pc p).request)
    (published : x.published = (s.pc p).published) (bufs : Bufs t)
    (free : t.free = s.free) (desc : ∀ i, s.free i = false → t.desc i = s.desc i)
    (info : t.info = s.info) (rest : SameRings s t) : Inv t := by
  refine ⟨mutual_, bufs, inv.descs.same (same_view pc_ request) free desc (fun i => by rw [info])
    rest.number, inv.rings.same rest ?_ ?_⟩
  · intro q r is
    exact ⟨by rw [← is, same_view pc_ request], same_view pc_ published q⟩
  · intro q r is _
    exact ⟨by rw [← is, same_view pc_ request], same_view pc_ published q⟩

/-- Nothing but the lock and who sleeps changes. -/
theorem Inv.stays (inv : Inv s) (mutual_ : Mutual t) (pc_ : t.pc = s.pc) (free : t.free = s.free)
    (desc : t.desc = s.desc) (info : t.info = s.info) (rest : SameRings s t) : Inv t := by
  refine ⟨mutual_, ?_, inv.descs.same (fun p => by rw [pc_]) free (fun i _ => by rw [desc])
    (fun i => by rw [info]) rest.number, inv.rings.same rest ?_ ?_⟩
  · intro q q' b is is'
    rw [pc_] at is is'
    exact inv.bufs q q' b is is'
  · intro q r is
    rw [pc_] at is ⊢
    exact ⟨is, rfl⟩
  · intro q r is _
    rw [pc_]
    exact ⟨is, rfl⟩

theorem sameRings_pc (pc : Fin n → Pc) (lock : Option (Holder n)) (asleep : Fin n → Bool)
    (free : Nat → Bool) (desc : Nat → Desc) :
    SameRings s { s with pc := pc, lock := lock, asleep := asleep, free := free, desc := desc } :=
  ⟨rfl, rfl, rfl, fun _ => rfl, rfl, rfl, rfl, rfl, rfl, rfl, rfl⟩

theorem acquire_fine (inv : Inv s) {p : Fin n} {pc : Pc} (request : pc.request = (s.pc p).request)
    (published : pc.published = (s.pc p).published) (buf : pc.buf = (s.pc p).buf) :
    Fine (acquire s p pc) := by
  unfold acquire
  split
  · exact .inr rfl
  · split
    · exact .inl rfl
    · rename_i free
      exact inv.goes (inv.mutual_.take free) rfl request published
        (Bufs.goes inv.bufs rfl buf) rfl (fun i _ => rfl) rfl (sameRings_pc ..)

theorem allocate_fine (inv : Inv s) {p : Fin n} {c : Call} (at_ : s.pc p = .allocating c) :
    Fine (allocate s p c) := by
  have holds : (s.pc p).holds = true := by rw [at_]; rfl
  rcases alloc3Desc_cases s with ⟨desc, asleep, fails, same⟩ | ⟨i0, i1, i2, nodup, fresh, takes⟩
  · simp only [allocate, fails]
    exact inv.goes (x := .entering c) (inv.mutual_.give proc_injective holds rfl) rfl
      (by rw [at_]; rfl) (by rw [at_]; rfl)
      (Bufs.goes (x := .entering c) inv.bufs rfl (by rw [at_]; rfl)) rfl same rfl
      (sameRings_pc ..)
  · simp only [allocate, takes]
    let q : Request := ⟨c, i0, i1, i2, s.made⟩
    have before : (s.pc p).request = none := by rw [at_]; rfl
    have buf : (s.pc p).buf = some q.call.b := by rw [at_]; rfl
    have alone (p' : Fin n) (q' : Request) (is : (s.pc p').request = some q') :
        (s.pc p').published = true := by
      by_contra no
      have also := inv.mutual_.alone proc_injective holds
        (holds_of_unpublished is (Bool.eq_false_iff.mpr no))
      rw [also, before] at is
      cases is
    have making : Making s ((format { s with
        free := update (update (update s.free i0 false) i1 false) i2 false } q).goTo p
        (.publishing q)) p q (.publishing q) :=
      ⟨before, buf, rfl, rfl, rfl, fresh i0 (by simp), rfl, alone,
        ⟨rfl, rfl, rfl, fun _ => rfl, rfl, rfl, rfl, rfl, rfl, rfl, rfl⟩⟩
    exact ⟨inv.mutual_.stay fun _ => holds, Bufs.goes inv.bufs rfl buf.symm,
      inv.descs.make (q := q) before rfl rfl nodup fresh rfl rfl rfl rfl,
      making.rings inv.rings inv.descs inv.bufs⟩

theorem await_fine (inv : Inv s) {p : Fin n} {q : Request} (at_ : s.pc p = .waiting q) :
    Fine (await s p q) := by
  have is : (s.pc p).request = some q := by rw [at_]; rfl
  have holds : (s.pc p).holds = true := by rw [at_]; rfl
  unfold await
  split
  · exact inv.goes (x := .sleeping q) (inv.mutual_.give proc_injective holds rfl) rfl is.symm
      (by rw [at_]; rfl) (Bufs.goes (x := .sleeping q) inv.bufs rfl (by rw [at_]; rfl)) rfl
      (fun i _ => rfl) rfl (sameRings_pc ..)
  · rename_i off
    have chain := inv.descs.chain p q is
    obtain ⟨h01, h02, h12⟩ := chain.apart
    have freed := freeChain_ok (s := { s with
      info := update s.info q.i0 { s.info q.i0 with b := none } }) chain
    simp only [freed]
    have others (i : Nat) (no : i ∉ q.idx) : i ≠ q.i0 ∧ i ≠ q.i1 ∧ i ≠ q.i2 := by
      simpa only [Request.idx, List.mem_cons, List.not_mem_nil, or_false, not_or] using no
    refine ⟨inv.mutual_.give proc_injective holds rfl, ?_,
      inv.descs.drop (x := .idle) is rfl rfl ?_ ?_ ?_ rfl, inv.rings.same ?_ ?_ ?_⟩
    · intro p' p'' b is' is''
      have old (r : Fin n) (here : (update s.pc p .idle r).buf = some b) :
          (s.pc r).buf = some b := by
        by_cases same : r = p
        · rw [same, update_self] at here
          cases here
        · rwa [update_of_ne same] at here
      exact inv.bufs p' p'' b (old p' is') (old p'' is'')
    · intro i
      simp only [State.goTo, DiskQueue.freed, State.wakeup, update_apply, Request.idx, List.mem_cons,
        List.not_mem_nil, or_false]
      split_ifs <;> simp_all
    · intro i no
      obtain ⟨n0, n1, n2⟩ := others i no
      simp only [State.goTo, DiskQueue.freed, State.wakeup, update_of_ne n0, update_of_ne n1,
        update_of_ne n2]
    · intro i other
      simp only [State.goTo, DiskQueue.freed, State.wakeup, update_of_ne other]
    · refine ⟨rfl, rfl, rfl, fun i => ?_, rfl, rfl, rfl, rfl, rfl, rfl, rfl⟩
      by_cases same : i = q.i0
      · rw [same]
        simp only [State.goTo, DiskQueue.freed, State.wakeup, update_self]
      · simp only [State.goTo, DiskQueue.freed, State.wakeup, update_of_ne same]
    · intro p' q' is'
      by_cases same : p' = p
      · rw [same] at is'
        simp only [State.goTo, update_self] at is'
        cases is'
      · simp only [State.goTo, DiskQueue.freed, State.wakeup, update_of_ne same] at is' ⊢
        exact ⟨is', trivial⟩
    · intro p' q' is' on_
      have other : p' ≠ p := by
        rintro rfl
        rw [is] at is'
        cases is'
        exact off on_
      simp only [State.goTo, DiskQueue.freed, State.wakeup, update_of_ne other]
      exact ⟨is', trivial⟩

theorem go_fine (inv : Inv s) (p : Fin n) : Fine (go s p) := by
  unfold go
  split
  · exact .inr rfl
  · rename_i c at_
    exact acquire_fine inv (by rw [at_]; rfl) (by rw [at_]; rfl) (by rw [at_]; rfl)
  · rename_i c at_
    exact allocate_fine inv at_
  · rename_i q at_
    have is : (s.pc p).request = some q := by rw [at_]; rfl
    have holds : (s.pc p).holds = true := by rw [at_]; rfl
    refine ⟨inv.mutual_.stay fun _ => holds, Bufs.goes (x := .waiting q) inv.bufs rfl
      (by rw [at_]; rfl), inv.descs.same (same_view (x := .waiting q) rfl (by rw [at_]; rfl)) rfl
      (fun i _ => rfl) (fun i => rfl) rfl, inv.rings.publishes inv.descs at_ ?_⟩
    intro p' q' is' unpublished
    exact inv.mutual_.alone proc_injective holds (holds_of_unpublished is' unpublished)
  · rename_i q at_
    exact await_fine inv at_
  · rename_i q at_
    exact acquire_fine inv (by rw [at_]; rfl) (by rw [at_]; rfl) (by rw [at_]; rfl)

theorem round_fine (inv : Inv s) (lock : s.lock = some .intr) : Fine (DiskQueue.round s) := by
  unfold DiskQueue.round
  split
  · refine inv.stays ?_ rfl rfl rfl rfl (sameRings_pc ..)
    intro p holds
    have held := inv.mutual_ p holds
    rw [lock] at held
    cases held
  · rename_i apart
    obtain ⟨p, q, is, here, status, rings⟩ := inv.rings.processes inv.descs inv.bufs apart
    simp only [here, status, inv.descs.buf p q is]
    exact ⟨inv.mutual_, inv.bufs, inv.descs.same (fun _ => rfl) rfl (fun _ _ => rfl) (fun _ => rfl)
      rfl, rings _⟩

theorem step_fine (inv : Inv s) (e : Event n) : Fine (step s e) := by
  cases e with
  | rw p c =>
    simp only [step]
    split
    · rename_i can
      obtain ⟨at_, unused⟩ := can
      have other {p' : Fin n} (is : ((s.goTo p (.entering c)).pc p').buf = some c.b) : p' = p := by
        by_contra no
        simp only [State.goTo, update_of_ne no] at is
        exact unused p' is
      have kept {p' : Fin n} {b : Nat} (is : ((s.goTo p (.entering c)).pc p').buf = some b)
          (no : p' ≠ p) : (s.pc p').buf = some b := by
        simpa only [State.goTo, update_of_ne no] using is
      have mine {b : Nat} (is : ((s.goTo p (.entering c)).pc p).buf = some b) : b = c.b := by
        simp only [State.goTo, update_self] at is
        exact (Option.some.inj is).symm
      refine inv.goes (x := .entering c) (inv.mutual_.stay fun no => absurd no Bool.false_ne_true) rfl (by rw [at_]; rfl)
        (by rw [at_]; rfl) ?_ rfl (fun i _ => rfl) rfl (sameRings_pc ..)
      intro p' p'' b is is'
      by_cases same : p' = p
      · subst same
        rw [mine is] at is'
        exact (other is').symm
      · by_cases same' : p'' = p
        · subst same'
          rw [mine is'] at is
          exact other is
        · exact inv.bufs p' p'' b (kept is same) (kept is' same')
    · exact .inr rfl
  | go p => exact go_fine inv p
  | kill p => exact inv.stays inv.mutual_ rfl rfl rfl rfl (sameRings_pc ..)
  | fetch =>
    simp only [step]
    split
    · exact .inr rfl
    · rename_i apart
      exact ⟨inv.mutual_, inv.bufs, inv.descs.same (fun _ => rfl) rfl (fun _ _ => rfl)
        (fun _ => rfl) rfl, inv.rings.fetches apart⟩
  | finish head =>
    simp only [step]
    split
    · rename_i mem
      obtain ⟨rings, info⟩ := inv.rings.finishes inv.descs mem
      exact ⟨inv.mutual_, inv.bufs, inv.descs.same (fun _ => rfl) rfl (fun _ _ => rfl) info rfl,
        rings⟩
    · exact .inr rfl
  | intr =>
    simp only [step]
    split
    · exact .inl rfl
    · rename_i free
      refine inv.stays ?_ rfl rfl rfl rfl (sameRings_pc ..)
      intro p holds
      have held := inv.mutual_ p holds
      rw [free] at held
      cases held
  | round =>
    simp only [step]
    split
    · rename_i lock
      exact round_fine inv lock
    · exact .inr rfl

theorem inv_boot (n : Nat) : Inv (boot n) := by
  have none (p : Fin n) (q : Request) : ((boot n).pc p).request ≠ some q := by
    simp [boot, Pc.request]
  have nothing : flight (boot n) = [] := by simp [flight, availed, pending, boot]
  refine ⟨fun p holds => ?_, fun p p' b is => ?_, ⟨?_, ?_, ?_, ?_, ?_⟩,
    ⟨?_, ?_, ?_, ?_, ?_, ?_, ?_, ?_, ?_, ?_, ?_⟩⟩
  · cases holds
  · cases is
  · exact fun p q is => absurd is (none p q)
  · exact fun p q is => absurd is (none p q)
  · exact fun p q is => absurd is (none p q)
  · exact fun p p' q q' i is => absurd is (none p q)
  · intro i low taken
    cases taken
  · rw [nothing]
    exact List.nodup_nil
  · intro h
    rw [nothing]
    constructor
    · intro mem
      cases mem
    · rintro ⟨p, q, is, -⟩
      exact absurd is (none p q)
  · exact fun p q is => absurd is (none p q)
  · intro h mem
    simp [pending, boot] at mem
  · simp [pending, boot]
  · exact List.nodup_nil
  · intro r mem
    cases mem
  · exact fun p q is => absurd is (none p q)
  · exact fun p p' q q' is => absurd is (none p q)
  · exact fun p q is => absurd is (none p q)
  · exact fun p q is => absurd is (none p q)

theorem reachable_inv {es : List (Event n)} (h : run step (boot n) es = .ok s) : Inv s := by
  refine run_invariant_all (fun s e t inv h => ?_) (inv_boot n) h
  have fine := step_fine inv e
  rw [h] at fine
  exact fine

/-- Whatever the processes, the device and the interrupt do: a descriptor is free or belongs to one
request, a request has three different ones, the device works on requests in flight only,
`b->disk` of a request is 0 only after the device has finished it and the interrupt has processed
it, the interrupt processes the finished requests one after the other, each once, and no step
panics. -/
theorem requests_complete (n : Nat) (es : List (Event n)) {s : State n}
    (h : run step (boot n) es = .ok s) :
    (∀ i < NUM, (s.free i = true ∧ ∀ p q, (s.pc p).request = some q → i ∉ q.idx) ∨
      (s.free i = false ∧ ∃! p, ∃ q, (s.pc p).request = some q ∧ i ∈ q.idx)) ∧
    (∀ p q, (s.pc p).request = some q → q.idx.Nodup ∧ ∀ i ∈ q.idx, i < NUM) ∧
    (∀ head ∈ s.working, ∃ p q, (s.pc p).request = some q ∧ q.i0 = head ∧
      s.number head = q.number ∧ s.disk q.call.b = true) ∧
    (∀ p q, (s.pc p).request = some q → s.disk q.call.b = false →
      q.number ∈ s.finished ∧ q.number ∈ s.processed) ∧
    s.finished.Nodup ∧ s.finished = s.processed ++ (pending s).map s.number ∧
    (s.used_idx = s.used.idx → s.processed = s.finished) ∧
    ∀ e x, step s e = .error x → x = .spins ∨ x = .disabled := by
  have inv := reachable_inv h
  refine ⟨?_, ?_, ?_, ?_, inv.rings.once, inv.rings.log, ?_, ?_⟩
  · intro i low
    cases free : s.free i with
    | true =>
      refine .inl ⟨rfl, fun p q is mem => ?_⟩
      have taken := (inv.descs.chain p q is).taken i mem
      rw [free] at taken
      cases taken
    | false =>
      obtain ⟨p, q, is, mem⟩ := inv.descs.owned i low free
      refine .inr ⟨rfl, p, ⟨q, is, mem⟩, ?_⟩
      rintro p' ⟨q', is', mem'⟩
      exact inv.descs.apart p' p q' q i is' is mem' mem
  · intro p q is
    have chain := inv.descs.chain p q is
    exact ⟨chain.nodup, chain.low⟩
  · intro head mem
    obtain ⟨p, q, is, -, rfl, on_⟩ :=
      (inv.rings.queued head).mp (List.mem_append_right _ (List.mem_append_left _ mem))
    exact ⟨p, q, is, rfl, inv.descs.number p q is, on_⟩
  · intro p q is off
    have done := inv.rings.done p q is off
    refine ⟨?_, done⟩
    rw [inv.rings.log]
    exact List.mem_append_left _ done
  · intro same
    rw [inv.rings.log, pending, same, span_self]
    simp
  · intro e x fails
    have fine := step_fine inv e
    rw [fails] at fine
    exact fine

/-- Two processes have requests in flight, and the second one is finished first. -/
def overtaken (p q : Fin n) : List (Event n) :=
  [.rw p ⟨3, 7, true⟩, .go p, .go p, .go p, .go p, .rw q ⟨4, 9, false⟩, .go q, .go q, .go q, .go q,
    .fetch, .fetch, .finish 3, .intr, .round, .finish 0, .round, .round, .go q, .go q]

theorem requests_complete_overtaken : ∃ s, run step (boot 2) (overtaken 0 1) = .ok s ∧
    s.finished = [1, 0] ∧ s.free 0 = false ∧ s.free 3 = true ∧ s.processed = s.finished := by
  have ran : Yields (run step (boot 2) (overtaken 0 1)) fun s =>
      s.finished = [1, 0] ∧ s.free 0 = false ∧ s.free 3 = true ∧ s.used_idx = s.used.idx := by
    decide +kernel
  obtain ⟨s, h, finished, first, second, all⟩ := ran
  exact ⟨s, h, finished, first, second, (requests_complete 2 _ h).2.2.2.2.2.2.1 all⟩

end DiskCompletions
