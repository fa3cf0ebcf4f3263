import Xv6.TickAccounting

/-!
# What `getMLFQInfo` reports

`tickCounts` counts the charges of the tick block and, at the bottom level, the
visits of Rule 5, which do not need the process to have run. The tick block
charges the process that was switched to last, once for each time the scheduler
regains control from it and finds it runnable or running.
-/

namespace TickReports

open ProcTable QueueStore FeedbackScheduler SchedulerRuns SchedulerBlocks LevelBounds
open TickAccounting EventRuns Outcomes Histories

def resets (i : Slot) : Mark → Bool
  | .reset j => j = i
  | _ => false

def chargedAt (i : Slot) (l : Level) (mark : Mark) : Bool := mark = .charged i l

def agedAt (i : Slot) (l : Level) (mark : Mark) : Bool := mark = .aged i l

/-- The charges of process `i` at level `l` since its slot was handed out. -/
def chargedTicks (i : Slot) (l : Level) (log : List Mark) : Nat :=
  tally (resets i) (chargedAt i l) log

/-- The visits of Rule 5 to process `i` at level `l` since then. -/
def agedTicks (i : Slot) (l : Level) (log : List Mark) : Nat :=
  tally (resets i) (agedAt i l) log

theorem chargedTicks_cons (i : Slot) (l : Level) (mark : Mark) (log : List Mark) :
    chargedTicks i l (mark :: log) = if resets i mark then 0
      else chargedTicks i l log + if chargedAt i l mark then 1 else 0 := tally_cons

theorem agedTicks_cons (i : Slot) (l : Level) (mark : Mark) (log : List Mark) :
    agedTicks i l (mark :: log) = if resets i mark then 0
      else agedTicks i l log + if agedAt i l mark then 1 else 0 := tally_cons

/-- `tickCounts` is an `int` array that only grows, so it wraps around. -/
def Counted (k : Kernel) : Prop := ∀ i l, (k.info i).tickCounts l =
  BitVec.ofNat 32 (chargedTicks i l k.log + agedTicks i l k.log)

theorem ofNat_succ (c : Nat) : BitVec.ofNat 32 c + 1 = BitVec.ofNat 32 (c + 1) := by
  apply BitVec.eq_of_toNat_eq
  simp

/-- A step that changes no count and notes nothing that counts. -/
theorem Counted.same {k k' : Kernel} (h : Counted k)
    (hinfo : ∀ i, (k'.info i).tickCounts = (k.info i).tickCounts)
    (hlog : ∀ i l, chargedTicks i l k'.log = chargedTicks i l k.log ∧
      agedTicks i l k'.log = agedTicks i l k.log) : Counted k' := by
  intro i l
  rw [hinfo i, (hlog i l).1, (hlog i l).2]
  exact h i l

/-- A step that adds one to the count of process `i` at level `l`. -/
theorem Counted.bump {k k' : Kernel} (h : Counted k) (i : Slot) (l : Level)
    (hinfo : ∀ j, (k'.info j).tickCounts =
      if j = i then Function.update (k.info i).tickCounts l ((k.info i).tickCounts l + 1)
      else (k.info j).tickCounts)
    (hlog : ∀ j l', chargedTicks j l' k'.log + agedTicks j l' k'.log =
      chargedTicks j l' k.log + agedTicks j l' k.log + if j = i ∧ l' = l then 1 else 0) :
    Counted k' := by
  intro j l'
  rw [hinfo j, hlog j l']
  by_cases hj : j = i
  · subst hj
    by_cases hl : l' = l
    · subst hl
      simp only [if_true, Function.update_self, and_self]
      rw [h j l', ofNat_succ]
    · simpa [hl] using h j l'
  · simpa [hj] using h j l'

theorem charge_counted {k k' : Kernel} {i : Slot} {b : Bool} (h : Counted k)
    (ho : ChargeOutcome k i k' b) : Counted k' := by
  have charged : ∀ (l : Level) j l', chargedTicks j l' (.charged i l :: k.log) +
      agedTicks j l' (.charged i l :: k.log) = chargedTicks j l' k.log + agedTicks j l' k.log +
        if j = i ∧ l' = l then 1 else 0 := by
    intro l j l'
    simp only [chargedTicks_cons, agedTicks_cons, resets, chargedAt, agedAt]
    by_cases hj : j = i ∧ l' = l
    · simp [hj, Nat.add_right_comm]
    · have hm : ¬ (i = j ∧ l = l') := fun ⟨h₁, h₂⟩ => hj ⟨h₁.symm, h₂.symm⟩
      simp [hj, hm]
  cases ho with
  | within l =>
    refine h.bump i l (fun j => ?_) (charged l)
    simp [update_field (·.tickCounts), tick]
  | spent l =>
    refine h.bump i l (fun j => ?_) ?_
    · simp [update_field (·.tickCounts), restart, tick]
    · simpa [chargedTicks_cons _ _ (.spent i l), agedTicks_cons _ _ (.spent i l), resets,
        chargedAt, agedAt] using charged l
  | demoted l =>
    refine h.bump i l (fun j => ?_) ?_
    · simp [update_field (·.tickCounts), descend, restart, tick]
    · simpa [chargedTicks_cons _ _ (.demoted i l), agedTicks_cons _ _ (.demoted i l), resets,
        chargedAt, agedAt] using charged l

theorem visit_counted {k k' : Kernel} {last : Level} {i : Slot} (h : Counted k)
    (ho : VisitOutcome k last i k') : Counted k' := by
  have aged : ∀ (l : Level) j l', chargedTicks j l' (.aged i l :: k.log) +
      agedTicks j l' (.aged i l :: k.log) = chargedTicks j l' k.log + agedTicks j l' k.log +
        if j = i ∧ l' = l then 1 else 0 := by
    intro l j l'
    simp only [chargedTicks_cons, agedTicks_cons, resets, chargedAt, agedAt]
    by_cases hj : j = i ∧ l' = l
    · simp [hj, Nat.add_assoc]
    · have hm : ¬ (i = j ∧ l = l') := fun ⟨h₁, h₂⟩ => hj ⟨h₁.symm, h₂.symm⟩
      simp [hj, hm]
  cases ho with
  | skipped => exact h
  | aged =>
    refine h.bump i last (fun j => ?_) (aged last)
    simp [update_field (·.tickCounts), age]
  | boosted =>
    refine h.bump i last (fun j => ?_) ?_
    · simp [update_field (·.tickCounts), ascend, age]
    · simpa [chargedTicks_cons _ _ (.boosted i last), agedTicks_cons _ _ (.boosted i last),
        resets, chargedAt, agedAt] using aged last

theorem admit_counted {k k' : Kernel} {i : Slot} (h : Counted k) (ho : AdmitOutcome k i k') :
    Counted k' := by
  cases ho with
  | idle => exact h
  | known =>
    refine h.same (fun j => rfl) fun j l => ?_
    simp [chargedTicks_cons, agedTicks_cons, resets, chargedAt, agedAt]
  | admitted s₁ =>
    refine h.same (fun j => ?_) fun j l => ?_
    · simp only [note_info, setInfo_info]
      exact update_reads (·.tickCounts) (by rfl) j
    · simp [chargedTicks_cons, agedTicks_cons, resets, chargedAt, agedAt]

theorem step_counted {s s' : Machine} {e : Event} (hs : Counted s.kernel)
    (h : step s e = .ok s') : Counted s'.kernel := by
  have charged : ∀ i l j state log,
      chargedTicks i l (.dispatched j state :: log) = chargedTicks i l log := by
    intros
    simp [chargedTicks_cons, resets, chargedAt]
  have aged : ∀ i l j state log,
      agedTicks i l (.dispatched j state :: log) = agedTicks i l log := by
    intros
    simp [agedTicks_cons, resets, agedAt]
  refine step_keeps (fun k i k' b h => charge_counted h) (fun k last i k' h => visit_counted h)
    ?pass (fun k i k' h => admit_counted h) ?switch ?quiet ?recycle ?start ?stop
    (fun k a pages h _ => h) (fun k a h _ _ => h) hs h
  case pass =>
    intro k h
    refine h.same (fun j => rfl) fun j l => ?_
    simp [chargedTicks_cons, agedTicks_cons, resets, chargedAt, agedAt]
  case switch =>
    intro k p h
    refine h.same (fun j => by rw [dispatch_info]) fun j l => ?_
    exact ⟨dispatch_reads (charged j l) k p, dispatch_reads (aged j l) k p⟩
  case quiet =>
    intro k k' h q
    refine h.same (fun j => by rw [q.info]) fun j l => ?_
    exact ⟨quiet_reads (charged j l) q, quiet_reads (aged j l) q⟩
  case recycle =>
    intro k k' j h r i l
    rw [r.log, chargedTicks_cons, agedTicks_cons]
    by_cases hi : i = j
    · subst hi
      rw [r.fresh]
      simp [resets, MLFQInfoReport.zero]
    · rw [r.other_info hi]
      simpa [resets, Ne.symm hi, chargedAt, agedAt] using h i l
  case start =>
    intro k m n h flag
    refine h.same (fun j => by rw [start_info]) fun j l => ?_
    rw [(start_idle m n flag).2.2.2.2]
    simp [chargedTicks_cons, agedTicks_cons, resets, chargedAt, agedAt]
  case stop =>
    intro k h flag
    refine h.same (fun j => by rw [stop_info]) fun j l => ?_
    rw [(stop_running flag).2.2.2.2]
    simp [chargedTicks_cons, agedTicks_cons, resets, chargedAt, agedAt]

theorem reachable_counted {s : Machine} (h : Reachable s) : Counted s.kernel := by
  refine h.induct (I := fun s => Counted s.kernel) ?_ fun _ _ _ hs ht => step_counted hs ht
  intro pages _ i l
  rw [boot_info]
  rfl

def switches (i : Slot) : Mark → Bool
  | .dispatched j _ => j = i
  | _ => false

/-- The charges of process `i`, at any level, since its slot was handed out. -/
def chargesSince (i : Slot) (log : List Mark) : Nat := tally (resets i) (charges i) log

/-- How often process `i` was switched to since then. -/
def switchesSince (i : Slot) (log : List Mark) : Nat := tally (resets i) (switches i) log

theorem chargesSince_cons (i : Slot) (mark : Mark) (log : List Mark) :
    chargesSince i (mark :: log) = if resets i mark then 0
      else chargesSince i log + if charges i mark then 1 else 0 := tally_cons

theorem switchesSince_cons (i : Slot) (mark : Mark) (log : List Mark) :
    switchesSince i (mark :: log) = if resets i mark then 0
      else switchesSince i log + if switches i mark then 1 else 0 := tally_cons

/-- Process `i` itself was switched to, and no iteration has run since. -/
def SwitchedTo (i : Slot) (log : List Mark) : Prop :=
  ∃ marks state rest, log = marks ++ .dispatched i state :: rest ∧
    ∀ mark ∈ marks, byBlock mark = false ∧ resets i mark = false

theorem SwitchedTo.cons {i : Slot} {log : List Mark} (h : SwitchedTo i log) {mark : Mark}
    (other : byBlock mark = false) (same : resets i mark = false) :
    SwitchedTo i (mark :: log) := by
  obtain ⟨marks, state, rest, rfl, hm⟩ := h
  refine ⟨mark :: marks, state, rest, rfl, ?_⟩
  intro mark' hmem
  rcases List.mem_cons.mp hmem with rfl | hmem
  · exact ⟨other, same⟩
  · exact hm mark' hmem

/-- The step does not free the slot that the scheduler keeps in `p`. -/
def KeepsProcess (s : Machine) (e : Event) : Prop := ∀ i, s.frame.p = some i → ¬ Frees s e i

instance (s : Machine) (e : Event) : Decidable (KeepsProcess s e) :=
  inferInstanceAs (Decidable (∀ _, _ → _))

/-- What `p` says about process `i`: each charge was preceded by a switch of its own,
and the last switch is not yet charged while `p` names the process. -/
structure Attended (s : Machine) (i : Slot) : Prop where
  inUse : s.frame.p = some i → (s.kernel.proc i).state ≠ .unused
  switched : s.frame.p = some i → SwitchedTo i s.kernel.log
  count : chargesSince i s.kernel.log + (if s.frame.p = some i then 1 else 0) ≤
    switchesSince i s.kernel.log

theorem charge_since {k k' : Kernel} {i j : Slot} {b : Bool} (h : ChargeOutcome k j k' b) :
    chargesSince i k'.log = chargesSince i k.log + (if j = i then 1 else 0) ∧
      switchesSince i k'.log = switchesSince i k.log := by
  cases h <;> simp [chargesSince_cons, switchesSince_cons, resets, charges, switches]

/-- Rule 5 and the admission scan charge nobody and switch to nobody. -/
theorem rest_since {k₁ k₂ k₃ : Kernel} (h₂ : ruleFive k₁ = .ok k₂)
    (h₃ : admissionScan k₂ = .ok k₃) (i : Slot) :
    chargesSince i k₃.log = chargesSince i k₁.log ∧
      switchesSince i k₃.log = switchesSince i k₁.log := by
  let Same : Kernel → Prop := fun r => chargesSince i r.log = chargesSince i k₁.log ∧
    switchesSince i r.log = switchesSince i k₁.log
  have pass : Same k₂ := by
    refine ruleFive_keeps (I := Same) ?_ (fun r hr => ?_) ⟨rfl, rfl⟩ h₂
    · rintro r last j r' hr ho
      cases ho with
      | skipped => exact hr
      | aged =>
        simpa [Same, chargesSince_cons, switchesSince_cons, resets, charges, switches] using hr
      | boosted =>
        simpa [Same, chargesSince_cons, switchesSince_cons, resets, charges, switches] using hr
    · simpa [Same, chargesSince_cons, switchesSince_cons, resets, charges, switches] using hr
  refine admissionScan_keeps (I := Same) ?_ pass h₃
  rintro r j r' hr ho
  cases ho with
  | idle => exact hr
  | known =>
    simpa [Same, chargesSince_cons, switchesSince_cons, resets, charges, switches] using hr
  | admitted =>
    simpa [Same, chargesSince_cons, switchesSince_cons, resets, charges, switches] using hr

/-- A step that leaves `p` alone and notes nothing but switches. -/
theorem Attended.same {s t : Machine} {i : Slot} (h : Attended s i)
    (frame : t.frame = s.frame)
    (unused : (t.kernel.proc i).state = .unused ↔ (s.kernel.proc i).state = .unused)
    (log : t.kernel.log = s.kernel.log ∨ ∃ mark, t.kernel.log = mark :: s.kernel.log ∧
      byBlock mark = false ∧ resets i mark = false) : Attended t i := by
  have count := h.count
  rcases log with log | ⟨mark, log, other, same⟩
  · constructor
    · exact fun hp => unused.not.mpr (h.inUse (frame ▸ hp))
    · exact fun hp => log ▸ h.switched (frame ▸ hp)
    · rwa [frame, log]
  · have uncharged : charges i mark = false := by
      cases mark with
      | charged => cases other
      | _ => rfl
    constructor
    · exact fun hp => unused.not.mpr (h.inUse (frame ▸ hp))
    · exact fun hp => log ▸ (h.switched (frame ▸ hp)).cons other same
    · rw [frame, log, chargesSince_cons, switchesSince_cons, same, uncharged]
      simp only [Bool.false_eq_true, if_false]
      omega

theorem iteration_attended {choose : Selection} {k k' : Kernel} {f f' : Frame} {i : Slot}
    (hs : Attended ⟨k, f⟩ i) (h : iteration choose k f = .ok (k', f')) :
    Attended ⟨k', f'⟩ i := by
  have count := hs.count
  simp only at count
  rcases iteration_parts h with ⟨j, hp, -, hc, rfl⟩ | ⟨k₁, k₂, k₃, h₁, h₂, h₃, rfl, rfl⟩
  · obtain ⟨charged, switched⟩ := @charge_since k k' i j true hc
    refine ⟨(fun none => nomatch none), (fun none => nomatch none), ?_⟩
    simp only [charged, switched, reduceCtorEq, if_false]
    simpa [hp] using count
  · obtain ⟨charged, switched⟩ := rest_since h₂ h₃ i
    have ticked : chargesSince i k₁.log ≤
          chargesSince i k.log + (if f.p = some i then 1 else 0) ∧
        switchesSince i k₁.log = switchesSince i k.log := by
      rcases h₁ with ⟨rfl, -⟩ | ⟨j, hp, -, hc⟩
      · exact ⟨Nat.le_add_right _ _, rfl⟩
      · obtain ⟨charged, switched⟩ := @charge_since k k₁ i j false hc
        exact ⟨by simp [charged, hp], switched⟩
    generalize selectionBlock choose k₃ f = f'
    cases hp : f'.p with
    | none =>
      refine ⟨fun named => ?_, fun named => ?_, ?_⟩
      · rw [hp] at named
        cases named
      · rw [hp] at named
        cases named
      · simp only [hp, dispatch_none, reduceCtorEq, if_false]
        omega
    | some j =>
      refine ⟨fun named => ?_, fun named => ?_, ?_⟩
      · obtain rfl : j = i := Option.some.inj (hp.symm.trans named)
        simp [dispatch_state]
      · obtain rfl : j = i := Option.some.inj (hp.symm.trans named)
        exact ⟨[], _, _, dispatch_log k₃ j, by simp⟩
      · simp only [hp, dispatch_log, chargesSince_cons, switchesSince_cons, resets, charges,
          switches, Option.some.injEq, decide_eq_true_eq, Bool.false_eq_true, if_false]
        omega

/-- The process in `p` is the one that the scheduler regains control from, as long as
no slot is freed while `p` names it. -/
theorem step_attended {s t : Machine} {e : Event} {i : Slot} (hs : Attended s i)
    (keeps : KeepsProcess s e) (h : step s e = .ok t) : Attended t i := by
  cases step_effect h with
  | iterated flag hi => exact iteration_attended hs hi
  | returned =>
    refine ⟨(fun none => nomatch none), (fun none => nomatch none), ?_⟩
    exact (Nat.le_add_right _ _).trans hs.count
  | quiet other q =>
    refine hs.same rfl (q.unused i) ?_
    rcases q.log with log | ⟨j, log⟩
    · exact Or.inl log
    · exact Or.inr ⟨_, log, rfl, rfl⟩
  | @recycled e k f tbl j others fresh origin =>
    have r := recycled_of_table others fresh
    by_cases hi : j = i
    · subst hi
      have away : f.p ≠ some j := by
        intro hp
        rcases origin with ⟨unused, -⟩ | frees
        · exact hs.inUse hp unused
        · exact keeps j hp frees
      refine ⟨fun hp => (away hp).elim, fun hp => (away hp).elim, ?_⟩
      simp [chargesSince_cons, resets, away]
    · have same : resets i (.reset j) = false := by simp [resets, hi]
      exact hs.same rfl (by rw [r.others i (Ne.symm hi)]) (Or.inr ⟨_, r.log, rfl, same⟩)
  | started m n flag =>
    exact hs.same rfl (by rw [start_proc]) (Or.inr ⟨_, (start_idle m n flag).2.2.2.2, rfl, rfl⟩)
  | stopped flag =>
    exact hs.same rfl (by rw [stop_proc]) (Or.inr ⟨_, (stop_running flag).2.2.2.2, rfl, rfl⟩)
  | lent => exact hs.same rfl Iff.rfl (Or.inl rfl)
  | repaid => exact hs.same rfl Iff.rfl (Or.inl rfl)

theorem run_attended {pages : List Addr} {es : List Event}
    (kept : Meets step KeepsProcess (boot pages) es) {s : Machine}
    (h : run step (boot pages) es = .ok s) (i : Slot) : Attended s i := by
  have idle : (boot pages).frame.p ≠ some i := nofun
  exact run_invariant (I := fun s => Attended s i)
    (fun _ _ _ hs hG ht => step_attended hs hG ht)
    ⟨fun hp => (idle hp).elim, fun hp => (idle hp).elim, le_rfl⟩ kept h

/-- After the tick block no process is charged, and Rule 5 counts at level
`m - 1` alone. -/
theorem rest_counts {choose : Selection} {k₁ k₂ k₃ : Kernel} {f : Frame}
    (h₂ : ruleFive k₁ = .ok k₂) (h₃ : admissionScan k₂ = .ok k₃) (i : Slot) (l : Level) :
    (dispatch k₃ (selectionBlock choose k₃ f).p).log.count (.charged i l) =
      k₁.log.count (.charged i l) ∧
    ((dispatch k₃ (selectionBlock choose k₃ f).p).log.count (.aged i l) ≠
      k₁.log.count (.aged i l) → (l.val : Int) = k₁.m - 1) := by
  let Same : Kernel → Prop := fun r => r.m = k₁.m ∧
    r.log.count (.charged i l) = k₁.log.count (.charged i l) ∧
    (r.log.count (.aged i l) ≠ k₁.log.count (.aged i l) → (l.val : Int) = k₁.m - 1)
  have pass : Same k₂ := by
    refine ruleFive_keeps (I := Same) ?_ (fun r hr => by simpa [Same] using hr)
      ⟨rfl, rfl, fun h => (h rfl).elim⟩ h₂
    rintro r last j r' ⟨hm, hc, ha⟩ ho
    cases ho with
    | skipped => exact ⟨hm, hc, ha⟩
    | aged bottom =>
      refine ⟨hm, by simpa using hc, fun hn => ?_⟩
      by_cases hl : last = l
      · rw [← hl, bottom, hm]
      · exact ha (by simpa [List.count_cons, hl] using hn)
    | boosted s₁ s₂ bottom =>
      refine ⟨hm, by simpa using hc, fun hn => ?_⟩
      by_cases hl : last = l
      · rw [← hl, bottom, hm]
      · exact ha (by simpa [List.count_cons, hl] using hn)
  have scan : Same k₃ := by
    refine admissionScan_keeps (I := Same) ?_ pass h₃
    rintro r j r' hr ho
    cases ho with
    | idle => exact hr
    | known => simpa [Same] using hr
    | admitted => simpa [Same] using hr
  cases hp : (selectionBlock choose k₃ f).p with
  | none => exact ⟨scan.2.1, scan.2.2⟩
  | some j =>
    rw [dispatch_log]
    simpa using And.intro scan.2.1 scan.2.2

theorem charge_counts {k k' : Kernel} {j : Slot} {b : Bool} (h : ChargeOutcome k j k' b)
    (i : Slot) (l : Level) :
    k'.log.count (.charged i l) = k.log.count (.charged i l) +
      (if j = i ∧ (k.info j).priority = l.val then 1 else 0) ∧
    k'.log.count (.aged i l) = k.log.count (.aged i l) ∧ k'.m = k.m := by
  cases h with
  | within l' level => simp [List.count_cons, level, Fin.ext_iff]
  | spent l' level => simp [List.count_cons, level, Fin.ext_iff]
  | demoted l' lower s₁ s₂ level => simp [List.count_cons, level, Fin.ext_iff]

/-- A charge of process `i` at level `l` is due in this step. -/
def ChargedAt (s : Machine) (e : Event) (i : Slot) (l : Level) : Prop :=
  Charged s e i ∧ (s.kernel.info i).priority = l.val

theorem iteration_charges {choose : Selection} {k k' : Kernel} {f f' : Frame}
    (flag : k.mlfqFlag = true) (h : iteration choose k f = .ok (k', f')) (i : Slot)
    (l : Level) :
    (ChargedAt ⟨k, f⟩ (.iterate choose) i l ∧
        k'.log.count (.charged i l) = k.log.count (.charged i l) + 1 ∨
      ¬ ChargedAt ⟨k, f⟩ (.iterate choose) i l ∧
        k'.log.count (.charged i l) = k.log.count (.charged i l)) ∧
    (k'.log.count (.aged i l) ≠ k.log.count (.aged i l) → (l.val : Int) = k.m - 1) := by
  have charge : ∀ {r : Kernel} {b : Bool} {j : Slot}, f.p = some j →
      ((k.proc j).state = .runnable ∨ (k.proc j).state = .running) →
      ChargeOutcome k j r b →
      ChargedAt ⟨k, f⟩ (.iterate choose) i l ∧
        r.log.count (.charged i l) = k.log.count (.charged i l) + 1 ∨
      ¬ ChargedAt ⟨k, f⟩ (.iterate choose) i l ∧
        r.log.count (.charged i l) = k.log.count (.charged i l) := by
    intro r b j hp hs hc
    have counts := (charge_counts hc i l).1
    by_cases hj : j = i ∧ (k.info j).priority = l.val
    · rw [if_pos hj] at counts
      obtain ⟨rfl, level⟩ := hj
      exact Or.inl ⟨⟨⟨⟨choose, rfl⟩, flag, hp, hs⟩, level⟩, counts⟩
    · rw [if_neg hj] at counts
      refine Or.inr ⟨?_, counts⟩
      rintro ⟨⟨-, -, hi, -⟩, level⟩
      have heq : j = i := Option.some.inj (hp.symm.trans hi)
      exact hj ⟨heq, heq ▸ level⟩
  rcases iteration_parts h with ⟨j, hp, hs, hc, -⟩ | ⟨k₁, k₂, k₃, h₁, h₂, h₃, rfl, rfl⟩
  · exact ⟨charge hp hs hc, fun hn => (hn (charge_counts hc i l).2.1).elim⟩
  · have rest := @rest_counts choose k₁ k₂ k₃ f h₂ h₃ i l
    rcases h₁ with ⟨rfl, idle⟩ | ⟨j, hp, hs, hc⟩
    · refine ⟨Or.inr ⟨?_, rest.1⟩, rest.2⟩
      rintro ⟨⟨-, -, hi, hs⟩, -⟩
      rcases hs with hs | hs
      · exact (idle i hi).1 hs
      · exact (idle i hi).2 hs
    · have tick := charge_counts hc i l
      constructor
      · rw [rest.1]
        exact charge hp hs hc
      · intro hn
        rw [← tick.2.2]
        exact rest.2 (tick.2.1 ▸ hn)

theorem other_charges {s t : Machine} {e : Event} (other : ∀ choose, e ≠ .iterate choose)
    (h : step s e = .ok t) (i : Slot) (l : Level) :
    t.kernel.log.count (.charged i l) = s.kernel.log.count (.charged i l) ∧
      t.kernel.log.count (.aged i l) = s.kernel.log.count (.aged i l) := by
  cases step_effect h with
  | iterated => exact (other _ rfl).elim
  | returned => exact (other _ rfl).elim
  | quiet _ q =>
    rcases q.log with hlog | ⟨j, hlog⟩
    · rw [hlog]
      exact ⟨rfl, rfl⟩
    · rw [hlog]
      simp
  | recycled => simp
  | started m n flag => simp [(start_idle m n flag).2.2.2.2]
  | stopped flag => simp [(stop_running flag).2.2.2.2]
  | lent => exact ⟨rfl, rfl⟩
  | repaid => exact ⟨rfl, rfl⟩

/-- One step charges one process at most: the one in `p`, once, at its level. -/
theorem step_charges {s t : Machine} {e : Event} (h : step s e = .ok t) (i : Slot)
    (l : Level) :
    (ChargedAt s e i l ∧
        t.kernel.log.count (.charged i l) = s.kernel.log.count (.charged i l) + 1 ∨
      ¬ ChargedAt s e i l ∧
        t.kernel.log.count (.charged i l) = s.kernel.log.count (.charged i l)) ∧
    (t.kernel.log.count (.aged i l) ≠ s.kernel.log.count (.aged i l) →
      (∃ choose, e = .iterate choose) ∧ (l.val : Int) = s.kernel.m - 1) := by
  by_cases iterates : ∃ choose, e = .iterate choose
  · obtain ⟨choose, rfl⟩ := iterates
    cases step_effect h with
    | iterated flag hi =>
      obtain ⟨charged, aged⟩ := iteration_charges flag hi i l
      exact ⟨charged, fun hn => ⟨⟨choose, rfl⟩, aged hn⟩⟩
    | returned flag =>
      refine ⟨Or.inr ⟨?_, rfl⟩, fun hn => (hn rfl).elim⟩
      rintro ⟨⟨-, on, -⟩, -⟩
      rw [flag] at on
      cases on
    | quiet other => exact (other _ rfl).elim
    | recycled j others fresh origin =>
      rcases origin with ⟨-, i', memory, copied, heq⟩ | ⟨i', heq, -⟩
      · cases heq
      · cases heq
  · obtain ⟨charged, aged⟩ := other_charges (fun choose heq => iterates ⟨choose, heq⟩) h i l
    refine ⟨Or.inr ⟨fun hx => iterates hx.1.1, charged⟩, fun hn => (hn aged).elim⟩

/-- `getMLFQInfo` reports the charges and the Rule 5 visits at each level since
the slot was handed out. A charge is made exactly when the scheduler regains
control from the process in `p` and finds it runnable or running; unless a slot was
freed while `p` named it, that process was switched to, once for each charge. -/
theorem report_law {pages : List Addr} (nodup : pages.Nodup) {es : List Event} {s : Machine}
    (h : run step (boot pages) es = .ok s) (i : Slot) (l : Level) :
    (∃ r, getMLFQInfo s.kernel i true = (0, some r) ∧ r.tickCounts l =
      BitVec.ofNat 32 (chargedTicks i l s.kernel.log + agedTicks i l s.kernel.log)) ∧
    (Meets step KeepsProcess (boot pages) es →
      (s.frame.p = some i → SwitchedTo i s.kernel.log) ∧
      chargesSince i s.kernel.log ≤ switchesSince i s.kernel.log) ∧
    ∀ e t, step s e = .ok t →
      (ChargedAt s e i l ∧
          t.kernel.log.count (.charged i l) = s.kernel.log.count (.charged i l) + 1 ∨
        ¬ ChargedAt s e i l ∧
          t.kernel.log.count (.charged i l) = s.kernel.log.count (.charged i l)) ∧
      (t.kernel.log.count (.aged i l) ≠ s.kernel.log.count (.aged i l) →
        (∃ choose, e = .iterate choose) ∧ (l.val : Int) = s.kernel.m - 1) := by
  refine ⟨⟨_, rfl, reachable_counted ⟨pages, es, nodup, h⟩ i l⟩, fun kept => ?_,
    fun e t ht => step_charges ht i l⟩
  have attended := run_attended kept h i
  exact ⟨attended.switched, (Nat.le_add_right _ _).trans attended.count⟩

/-- The first process is charged once and visited twice at the bottom level, and about
to be charged there again. -/
def visitedRun : List Event :=
  [.rr 0, .startMLFQ 2 5, .yield 0, .iterate (select none), .yield 0, .iterate (select none),
    .yield 0, .iterate (select none), .iterate (select none), .yield 0, .iterate (select none),
    .yield 0]

theorem report_law_visited :
    ∃ s t, run step (boot [0, 1, 2, 3]) visitedRun = .ok s ∧
      step s (.iterate (select none)) = .ok t ∧
      (chargedTicks 0 1 s.kernel.log = 1 ∧ agedTicks 0 1 s.kernel.log = 2 ∧
        s.frame.p = some 0) ∧
      (∃ r, getMLFQInfo s.kernel 0 true = (0, some r) ∧ r.tickCounts 1 =
        BitVec.ofNat 32 (chargedTicks 0 1 s.kernel.log + agedTicks 0 1 s.kernel.log)) ∧
      SwitchedTo 0 s.kernel.log ∧ chargesSince 0 s.kernel.log ≤ switchesSince 0 s.kernel.log ∧
      t.kernel.log.count (.charged 0 1) = s.kernel.log.count (.charged 0 1) + 1 := by
  have kept : Meets step KeepsProcess (boot [0, 1, 2, 3]) visitedRun := by decide +kernel
  have seen : Yields (run step (boot [0, 1, 2, 3]) visitedRun) fun s =>
      (chargedTicks 0 1 s.kernel.log = 1 ∧ agedTicks 0 1 s.kernel.log = 2 ∧
        s.frame.p = some 0) ∧
      (Charged s (.iterate (select none)) 0 ∧ (s.kernel.info 0).priority = 1) ∧
      Yields (step s (.iterate (select none))) fun _ => True := by
    decide +kernel
  obtain ⟨s, hs, facts, due, t, ht, -⟩ := seen
  obtain ⟨report, attended, charge⟩ := report_law (by decide) hs 0 1
  refine ⟨s, t, hs, ht, facts, report, (attended kept).1 facts.2.2, (attended kept).2, ?_⟩
  rcases (charge _ t ht).1 with ⟨-, one⟩ | ⟨idle, -⟩
  · exact one
  · exact (idle due).elim

/-- One queue and two processes, of which only the first ever runs. -/
def bystanderRun : List Event :=
  [.rr 0, .fork 0 true true, .startMLFQ 1 5, .yield 0, .iterate (select none), .yield 0,
    .iterate (select none)]

/-- Rule 5 counts a tick of the second process, which never ran, and a second
tick of the first one for the same iteration. -/
theorem bystander_is_counted :
    Yields (run step (boot [0, 1, 2, 3]) bystanderRun) fun s =>
      ((s.kernel.info 1).tickCounts 0 = 1 ∧ s.kernel.log.count (.charged 1 0) = 0 ∧
        s.kernel.log.countP (switches 1) = 0) ∧
      (s.kernel.info 0).tickCounts 0 = 2 ∧ s.kernel.log.count (.charged 0 0) = 1 := by
  decide +kernel

end TickReports
