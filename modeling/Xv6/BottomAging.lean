import Xv6.SuppliedRuns
import Xv6.Lib.Histories

/-!
# Rule 5 and the bottom queue

A process enters the bottom level by a demotion, and `ticksAtMaxPriority` then
counts the passes of Rule 5 that it has waited through. A pass visits each
element of the bottom queue once although it deletes elements under its own
cursor, so the count of every waiting process goes up by one and the boost comes
in the pass that makes it `n`. Which process a selection step picks is left open.
-/

namespace BottomAging

open ProcTable QueueStore FeedbackScheduler SchedulerRuns SchedulerBlocks RuleFivePass
open LevelBounds SuppliedRuns EventRuns Outcomes Histories

/-- The marks at which process `i` enters the level `last`. -/
def enters (last : Level) (i : Slot) : Mark → Bool
  | .demoted j l => j = i ∧ l.val + 1 = last.val
  | _ => false

def isPass : Mark → Bool
  | .passed => true
  | _ => false

/-- The passes of Rule 5 since process `i` entered the level `last`. -/
def passesSince (last : Level) (i : Slot) (log : List Mark) : Nat :=
  tally (enters last i) isPass log

theorem passesSince_cons (last : Level) (i : Slot) (mark : Mark) (log : List Mark) :
    passesSince last i (mark :: log) = if enters last i mark then 0
      else passesSince last i log + if isPass mark then 1 else 0 := tally_cons

/-- The bottom queue, its processes and their counts between two passes. -/
structure Bottom (n : Int) (last : Level) (k : Kernel) : Prop where
  levels : (last.val : Int) = k.m - 1
  limit : k.n = n
  linked : ∀ i, (k.store.queue last).count i = if (k.info i).priority = last.val then 1 else 0
  waiting : ∀ i, (k.info i).priority = last.val →
    ((k.info i).ticksAtMaxPriority : Int) < n ∧
      (k.info i).ticksAtMaxPriority = passesSince last i k.log
  elsewhere : ∀ i, (k.info i).priority ≠ last.val → (k.info i).ticksAtMaxPriority = 0
  unused : ∀ i, (k.proc i).state = .unused → (k.info i).priority = 0

variable {n : Int} {last : Level} {k k' : Kernel} {i : Slot}

/-- A step that touches neither the bottom queue nor its processes. -/
theorem Bottom.same (h : Bottom n last k) (settings : k'.m = k.m ∧ k'.n = k.n)
    (count : ∀ j, (k'.store.queue last).count j = (k.store.queue last).count j)
    (priority : ∀ j, (k'.info j).priority = (k.info j).priority)
    (counter : ∀ j, (k'.info j).ticksAtMaxPriority = (k.info j).ticksAtMaxPriority)
    (passes : ∀ j, passesSince last j k'.log = passesSince last j k.log)
    (unused : ∀ j, (k'.proc j).state = .unused → (k.info j).priority = 0) :
    Bottom n last k' := by
  constructor
  · rw [settings.1]
    exact h.levels
  · rw [settings.2]
    exact h.limit
  · intro j
    rw [count j, priority j]
    exact h.linked j
  · intro j hj
    rw [counter j, passes j]
    exact h.waiting j (priority j ▸ hj)
  · intro j hj
    rw [counter j]
    exact h.elsewhere j (priority j ▸ hj)
  · intro j hj
    rw [priority j]
    exact unused j hj

theorem charge_bottom {b : Bool} (patience : 1 ≤ n) (w : Wf k.store) (h : Bottom n last k)
    (awake : (k.proc i).state = .runnable ∨ (k.proc i).state = .running)
    (ho : ChargeOutcome k i k' b)
    (supplied : k'.store.failed = k.store.failed) : Bottom n last k' := by
  cases ho with
  | within l =>
    refine h.same ⟨rfl, rfl⟩ (fun _ => rfl) (fun j => ?_) (fun j => ?_) (fun j => ?_)
      fun j hj => h.unused j (by simpa using hj)
    · simpa using update_reads (·.priority) (by simp [tick]) j
    · simpa using update_reads (·.ticksAtMaxPriority) (by simp [tick]) j
    · simp [passesSince_cons, enters, isPass]
  | spent l =>
    refine h.same ⟨rfl, rfl⟩ (fun _ => rfl) (fun j => ?_) (fun j => ?_) (fun j => ?_)
      fun j hj => h.unused j (by simpa using hj)
    · simpa using update_reads (·.priority) (by simp [restart, tick]) j
    · simpa using update_reads (·.ticksAtMaxPriority) (by simp [restart, tick]) j
    · simp [passesSince_cons, enters, isPass]
  | demoted l lower s₁ s₂ level full above below enque delete =>
    have counts := (relink_counts w enque delete).2.2 supplied
    have off : l ≠ last := by
      intro heq
      have := h.levels
      rw [heq] at above
      omega
    have offv : l.val ≠ last.val := fun heq => off (Fin.ext heq)
    have zero : (k.info i).ticksAtMaxPriority = 0 := h.elsewhere i (by rw [level]; exact offv)
    have none : (k.store.queue last).count i = 0 := by
      rw [h.linked i, level, if_neg offv]
    constructor
    · exact h.levels
    · exact h.limit
    · intro j
      simp only [note_store, setInfo_store, setStore_store, note_info, setInfo_info,
        setStore_info]
      rw [counts last j]
      by_cases hj : j = i
      · subst hj
        rw [none, Function.update_self]
        by_cases hl : lower = last
        · subst hl
          simp [Ne.symm off, descend, restart, tick, level, below]
        · have hlv : ¬ l.val + 1 = last.val := fun heq => hl (Fin.ext (below.trans heq))
          simp [Ne.symm off, Ne.symm hl, descend, restart, tick, level, hlv]
      · simpa [hj] using h.linked j
    · intro j hj
      by_cases hji : j = i
      · subst hji
        simp only [note_info, setInfo_info, setStore_info, Function.update_self, descend,
          restart, tick, level, note_log, setInfo_log, setStore_log] at hj ⊢
        rw [zero]
        constructor
        · exact_mod_cast (by omega : (0 : Int) < n)
        · simp [passesSince_cons, enters, hj]
      · simp only [note_info, setInfo_info, setStore_info, Function.update_of_ne hji] at hj ⊢
        simpa [passesSince_cons, enters, isPass, Ne.symm hji] using h.waiting j hj
    · intro j hj
      by_cases hji : j = i
      · subst hji
        simp [descend, restart, tick, zero]
      · simp only [note_info, setInfo_info, setStore_info, Function.update_of_ne hji] at hj ⊢
        exact h.elsewhere j hj
    · intro j hj
      by_cases hji : j = i
      · subst hji
        have asleep : (k.proc j).state = .unused := by simpa using hj
        rcases awake with h | h <;> rw [asleep] at h <;> cases h
      · simpa [hji] using h.unused j (by simpa using hj)

theorem admit_bottom (low : 1 ≤ last.val) (w : Wf k.store) (h : Bottom n last k)
    (ho : AdmitOutcome k i k') (supplied : k'.store.failed = k.store.failed) :
    Bottom n last k' := by
  cases ho with
  | idle => exact h
  | known =>
    refine h.same ⟨rfl, rfl⟩ (fun _ => rfl) (fun _ => rfl) (fun _ => rfl) (fun j => ?_) h.unused
    simp [passesSince_cons, enters, isPass]
  | admitted s₁ runnable new enque =>
    have counts := (enque_counts w enque).2.2 supplied
    have ne : last ≠ 0 := by
      intro heq
      rw [heq] at low
      simp at low
    refine h.same ⟨rfl, rfl⟩ (fun j => ?_) (fun j => ?_) (fun j => ?_) (fun j => ?_)
      fun j hj => h.unused j (by simpa using hj)
    · simpa [ne] using counts last j
    · simpa using update_reads (·.priority) (by simp) j
    · simpa using update_reads (·.ticksAtMaxPriority) (by simp) j
    · simp [passesSince_cons, enters, isPass]

theorem dispatch_bottom (h : Bottom n last k) (p : Option Slot) :
    Bottom n last (dispatch k p) := by
  refine h.same ⟨dispatch_m k p, dispatch_n k p⟩ (fun j => by rw [dispatch_store])
    (fun j => by rw [dispatch_info]) (fun j => by rw [dispatch_info])
    (fun j => dispatch_reads ?_ k p) fun j hj => ?_
  · intro i state log
    simp [passesSince_cons, enters, isPass]
  · cases p with
    | none => exact h.unused j hj
    | some i =>
      rw [dispatch_state] at hj
      split at hj
      · cases hj
      · exact h.unused j hj

/-- A pass that began in `k₁` and has still to visit `rest`. -/
structure Midway (n : Int) (last : Level) (k₁ k : Kernel) (rest : List Slot) : Prop where
  levels : (last.val : Int) = k.m - 1
  limit : k.n = n
  linked : ∀ i, (k.store.queue last).count i = if (k.info i).priority = last.val then 1 else 0
  elsewhere : ∀ i, (k.info i).priority ≠ last.val → (k.info i).ticksAtMaxPriority = 0
  unused : ∀ i, (k.proc i).state = .unused → (k.info i).priority = 0
  passes : ∀ i, passesSince last i k.log = passesSince last i k₁.log
  nodup : rest.Nodup
  bottom : ∀ i ∈ rest, (k.info i).priority = last.val
  waiting : ∀ i, (k.info i).priority = last.val →
    ((k.info i).ticksAtMaxPriority : Int) < n ∧
      (k.info i).ticksAtMaxPriority = passesSince last i k₁.log + if i ∈ rest then 0 else 1
  stayed : ∀ i, (k₁.info i).priority ≠ last.val → (k.info i).priority = (k₁.info i).priority
  fate : ∀ i, (k₁.info i).priority = last.val → (k.info i).priority = last.val ∨
    (k.info i).priority = 0 ∧ 0 < (k.store.queue 0).count i ∧
      (passesSince last i k₁.log : Int) + 1 = n

/-- Every process of the bottom level is ahead of a pass that begins. -/
theorem Bottom.midway (h : Bottom n last k) : Midway n last k k (k.store.queue last) := by
  have mem : ∀ i, i ∈ k.store.queue last ↔ (k.info i).priority = last.val := by
    intro i
    rw [← List.count_pos_iff, h.linked i]
    by_cases level : (k.info i).priority = last.val <;> simp [level]
  constructor
  case levels => exact h.levels
  case limit => exact h.limit
  case linked => exact h.linked
  case elsewhere => exact h.elsewhere
  case unused => exact h.unused
  case passes => exact fun _ => rfl
  case nodup =>
    refine List.nodup_iff_count_le_one.mpr fun i => ?_
    rw [h.linked i]
    split <;> omega
  case bottom => exact fun i => (mem i).mp
  case waiting =>
    intro i level
    rw [if_pos ((mem i).mpr level)]
    exact h.waiting i level
  case stayed => exact fun _ _ => rfl
  case fate => exact fun _ level => Or.inl level

/-- The slots behind the one that is visited. -/
theorem Midway.ahead {k₁ : Kernel} {rest : List Slot} (h : Midway n last k₁ k (i :: rest)) :
    i ∉ rest ∧ rest.Nodup ∧ (∀ j ∈ rest, j ≠ i ∧ (k.info j).priority = last.val) ∧
      (k.info i).priority = last.val ∧
      (k.info i).ticksAtMaxPriority = passesSince last i k₁.log := by
  have here : (k.info i).priority = last.val := h.bottom i List.mem_cons_self
  obtain ⟨fresh, nodup⟩ := List.nodup_cons.mp h.nodup
  refine ⟨fresh, nodup, fun j hj => ?_, here, ?_⟩
  · exact ⟨fun heq => fresh (heq ▸ hj), h.bottom j (List.mem_cons_of_mem i hj)⟩
  · have counted := (h.waiting i here).2
    simpa using counted

theorem aged_midway {k₁ : Kernel} {rest : List Slot} (h : Midway n last k₁ k (i :: rest))
    (levels : (last.val : Int) = k.m - 1)
    (patient : ((k.info i).ticksAtMaxPriority : Int) + 1 < k.n) :
    Midway n last k₁ ((k.setInfo i (age (k.info i) last)).note (.aged i last)) rest := by
  obtain ⟨fresh, nodup, bottom, here, count⟩ := h.ahead
  have priority : ∀ j, (Function.update k.info i (age (k.info i) last) j).priority =
      (k.info j).priority := update_reads (·.priority) (by simp [age])
  constructor
  case levels => exact levels
  case limit => exact h.limit
  case linked =>
    intro j
    simpa [priority j] using h.linked j
  case elsewhere =>
    intro j hj
    simp only [note_info, setInfo_info] at hj ⊢
    rw [priority j] at hj
    have hji : j ≠ i := by
      rintro rfl
      exact hj here
    rw [Function.update_of_ne hji]
    exact h.elsewhere j hj
  case unused =>
    intro j hj
    simp only [note_info, setInfo_info]
    rw [priority j]
    exact h.unused j (by simpa using hj)
  case passes =>
    intro j
    rw [← h.passes j]
    simp [passesSince_cons, enters, isPass]
  case nodup => exact nodup
  case bottom =>
    intro j hj
    simp only [note_info, setInfo_info]
    rw [priority j]
    exact (bottom j hj).2
  case waiting =>
    intro j hj
    simp only [note_info, setInfo_info] at hj ⊢
    rw [priority j] at hj
    by_cases hji : j = i
    · subst hji
      rw [Function.update_self, if_neg fresh, ← count]
      rw [h.limit] at patient
      exact ⟨by simpa [age] using patient, rfl⟩
    · rw [Function.update_of_ne hji]
      simpa [hji] using h.waiting j hj
  case stayed =>
    intro j hj
    simp only [note_info, setInfo_info]
    rw [priority j]
    exact h.stayed j hj
  case fate =>
    intro j hj
    simp only [note_info, setInfo_info, note_store, setInfo_store]
    rw [priority j]
    exact h.fate j hj

theorem boosted_midway {k₁ : Kernel} {rest : List Slot} {s₁ s₂ : Store} (low : 1 ≤ last.val)
    (w : Wf k.store) (h : Midway n last k₁ k (i :: rest)) (levels : (last.val : Int) = k.m - 1)
    (due : k.n ≤ ((k.info i).ticksAtMaxPriority : Int) + 1)
    (enque : mlfqEnque k.store 0 i = .ok s₁) (delete : mlfqDelete s₁ last i = .ok s₂)
    (supplied : s₂.failed = k.store.failed) :
    Midway n last k₁ (((((k.setInfo i (age (k.info i) last)).note (.aged i last)).setStore
      s₂).setInfo i (ascend (age (k.info i) last) last)).note (.boosted i last)) rest := by
  obtain ⟨fresh, nodup, bottom, here, count⟩ := h.ahead
  have counts := (relink_counts w enque delete).2.2 supplied
  have ne : (0 : Level) ≠ last := by
    intro heq
    rw [← heq] at low
    simp at low
  have zero : (0 : Nat) ≠ last.val := by omega
  constructor
  case levels => exact levels
  case limit => exact h.limit
  case linked =>
    intro j
    simp only [note_store, setInfo_store, setStore_store, note_info, setInfo_info,
      setStore_info]
    rw [counts last j]
    by_cases hj : j = i
    · subst hj
      rw [h.linked j, if_pos here]
      simp [ne.symm, ascend, zero]
    · simpa [hj] using h.linked j
  case elsewhere =>
    intro j hj
    by_cases hji : j = i
    · subst hji
      simp [ascend]
    · simp only [note_info, setInfo_info, setStore_info, Function.update_of_ne hji] at hj ⊢
      exact h.elsewhere j hj
  case unused =>
    intro j hj
    by_cases hji : j = i
    · subst hji
      simp [ascend]
    · simpa [hji] using h.unused j (by simpa using hj)
  case passes =>
    intro j
    rw [← h.passes j]
    simp [passesSince_cons, enters, isPass]
  case nodup => exact nodup
  case bottom =>
    intro j hj
    simpa [(bottom j hj).1] using (bottom j hj).2
  case waiting =>
    intro j hj
    by_cases hji : j = i
    · subst hji
      simp [ascend, zero] at hj
    · simp only [note_info, setInfo_info, setStore_info, Function.update_of_ne hji] at hj ⊢
      simpa [hji] using h.waiting j hj
  case stayed =>
    intro j hj
    have hji : j ≠ i := by
      rintro rfl
      exact hj ((h.stayed j hj).symm.trans here)
    simpa [hji] using h.stayed j hj
  case fate =>
    intro j hj
    simp only [note_info, setInfo_info, setStore_info, note_store, setInfo_store,
      setStore_store]
    rw [counts 0 j]
    by_cases hji : j = i
    · subst hji
      have limit := (h.waiting j here).1
      rw [h.limit] at due
      refine Or.inr ⟨by simp [ascend], by simp [ne], by omega⟩
    · rcases h.fate j hj with stays | ⟨top, queued, nth⟩
      · exact Or.inl (by simpa [hji] using stays)
      · exact Or.inr ⟨by simpa [hji] using top, by simpa [hji] using queued, nth⟩

theorem visit_midway {k₁ : Kernel} {rest : List Slot} (low : 1 ≤ last.val) (w : Wf k.store)
    (h : Midway n last k₁ k (i :: rest)) (ho : VisitOutcome k last i k')
    (supplied : k'.store.failed = k.store.failed) : Midway n last k₁ k' rest := by
  cases ho with
  | skipped elsewhere => exact (elsewhere (h.bottom i List.mem_cons_self)).elim
  | aged levels level patient => exact aged_midway h levels patient
  | boosted s₁ s₂ levels level due enque delete =>
    exact boosted_midway low w h levels due enque delete supplied

/-- What a pass does to the processes that were at the bottom level before it. -/
structure PassLaw (n : Int) (last : Level) (k k' : Kernel) : Prop where
  /-- Every process of the bottom level has been counted and is not yet due. -/
  patient : ∀ i, (k'.info i).priority = last.val → ((k'.info i).ticksAtMaxPriority : Int) < n
  elsewhere : ∀ i, (k'.info i).priority ≠ last.val → (k'.info i).ticksAtMaxPriority = 0
  /-- This pass is at most the `n`-th one of a process at the bottom level. -/
  reached : ∀ i, (k.info i).priority = last.val → (passesSince last i k.log : Int) + 1 ≤ n
  early : ∀ i, (k.info i).priority = last.val → (passesSince last i k.log : Int) + 1 < n →
    (k'.info i).priority = last.val ∧ (k'.store.queue last).count i = 1
  nth : ∀ i, (k.info i).priority = last.val → (passesSince last i k.log : Int) + 1 = n →
    (k'.info i).priority = 0 ∧ 0 < (k'.store.queue 0).count i ∧
      (k'.store.queue last).count i = 0
  others : ∀ i, (k.info i).priority ≠ last.val → (k'.info i).priority = (k.info i).priority

/-- A supplied pass from a well formed bottom queue completes, obeys the law and
leaves the bottom queue well formed. -/
theorem pass_exact (low : 1 ≤ last.val) (w : Wf k.store) (h : Bottom n last k) :
    Yields (ruleFive k) fun k' => k'.store.failed = k.store.failed →
      PassLaw n last k k' ∧ Bottom n last k' := by
  have ne : last ≠ 0 := by
    intro heq
    rw [heq] at low
    simp at low
  let I : Kernel → List Slot → Prop := fun r rest =>
    k.store.failed ≤ r.store.failed ∧
      (r.store.failed = k.store.failed → Midway n last k r rest)
  have pass := pass_rule (I := I) h.levels w ?visit ⟨le_rfl, fun _ => h.midway⟩
  case visit =>
    rintro r i rest r' ⟨grown, midway⟩ levels wr - ho
    have visited := (visit_failed wr ho).2
    have rest' : ahead r last i rest = rest := by simp [ahead, ne]
    rw [rest']
    refine ⟨grown.trans visited, fun same => ?_⟩
    have before : r.store.failed = k.store.failed := by omega
    exact visit_midway low wr (midway before) ho (same.trans before.symm)
  refine pass.mono ?_
  rintro k' ⟨-, k₀, rfl, -, midway⟩ supplied
  have done := midway supplied
  have count : ∀ i, (k₀.info i).priority = last.val →
      (k₀.info i).ticksAtMaxPriority = passesSince last i k.log + 1 := by
    intro i level
    simpa using (done.waiting i level).2
  constructor
  · constructor
    · exact fun i level => (done.waiting i level).1
    · exact done.elsewhere
    · intro i level
      have := (h.waiting i level).1
      rw [(h.waiting i level).2] at this
      omega
    · intro i level early
      rcases done.fate i level with stays | ⟨-, -, nth⟩
      · refine ⟨stays, ?_⟩
        rw [note_store, done.linked i, if_pos stays]
      · omega
    · intro i level nth
      rcases done.fate i level with stays | ⟨top, queued, -⟩
      · have limit := (done.waiting i stays).1
        have := count i stays
        omega
      · refine ⟨top, queued, ?_⟩
        rw [note_store, done.linked i, top, if_neg (by omega)]
    · exact done.stayed
  · constructor
    · exact done.levels
    · exact done.limit
    · exact done.linked
    · intro i level
      refine ⟨(done.waiting i level).1, ?_⟩
      have := count i level
      simpa [passesSince_cons, enters, isPass, done.passes i] using this
    · exact done.elsewhere
    · exact done.unused

/-- The session goes on, no allocation fails and no slot is freed. -/
def Undisturbed (s : Machine) (e : Event) : Prop :=
  Continues s e ∧ Supplied s e ∧ ∀ j, ¬ Frees s e j

instance (s : Machine) (e : Event) : Decidable (Undisturbed s e) :=
  inferInstanceAs (Decidable (_ ∧ _ ∧ _))

theorem step_bottom {s t : Machine} {e : Event} (low : 1 ≤ last.val) (patience : 1 ≤ n)
    (sound : Sound s.kernel) (hs : Bottom n last s.kernel) (undisturbed : Undisturbed s e)
    (h : step s e = .ok t) : Bottom n last t.kernel := by
  obtain ⟨same, supplied, keeps⟩ := undisturbed
  have failed := supplied t h
  cases step_effect h with
  | iterated flag hi =>
    refine iteration_supplied sound.wf hs ?charge ?five
      (fun k i k' w hk ho => admit_bottom low w hk ho) (fun k p hk => dispatch_bottom hk p)
      hi failed
    case charge =>
      intro i k₁ b _ awake hc
      exact charge_bottom patience sound.wf hs awake hc
    case five =>
      intro k k' w hk h same
      exact ((pass_exact low w hk).of_ok h same).2
  | returned => exact hs
  | quiet other q =>
    refine hs.same ⟨q.m, q.n⟩ (fun j => by rw [q.store]) (fun j => by rw [q.info])
      (fun j => by rw [q.info]) (fun j => quiet_reads ?_ q)
      fun j hj => hs.unused j ((q.unused j).mp hj)
    intro i state log
    simp [passesSince_cons, enters, isPass]
  | @recycled e k f t j others fresh origin =>
    have r := recycled_of_table others fresh
    have unused : (k.proc j).state = .unused := by
      rcases origin with ⟨unused, -⟩ | frees
      · exact unused
      · exact (keeps j frees).elim
    have level : (k.info j).priority = 0 := hs.unused j unused
    have away : (k.info j).priority ≠ last.val := by omega
    have zero : (k.info j).ticksAtMaxPriority = 0 := hs.elsewhere j away
    refine hs.same ⟨r.m, r.n⟩ (fun i => by rw [r.store]) (fun i => ?_) (fun i => ?_)
      (fun i => ?_) fun i hi => ?_
    · by_cases hij : i = j
      · rw [hij, r.fresh, level]
        rfl
      · rw [r.other_info hij]
    · by_cases hij : i = j
      · rw [hij, r.fresh, zero]
        rfl
      · rw [r.other_info hij]
    · rw [r.log]
      simp [passesSince_cons, enters, isPass]
    · by_cases hij : i = j
      · rw [hij]
        exact level
      · rw [r.others i hij] at hi
        exact hs.unused i hi
  | started m n flag =>
    have := same m n rfl
    rw [flag] at this
    cases this
  | stopped flag =>
    obtain ⟨hm, hn, -, hstore, hlog⟩ := stop_running flag
    refine hs.same ⟨hm, hn⟩ (fun j => by rw [hstore]) (fun j => by rw [stop_info])
      (fun j => by rw [stop_info]) (fun j => ?_)
      fun j hj => hs.unused j (by rwa [stop_proc] at hj)
    rw [hlog]
    simp [passesSince_cons, enters, isPass]
  | lent =>
    exact hs.same ⟨rfl, rfl⟩ (fun _ => rfl) (fun _ => rfl) (fun _ => rfl) (fun _ => rfl) hs.unused
  | repaid =>
    exact hs.same ⟨rfl, rfl⟩ (fun _ => rfl) (fun _ => rfl) (fun _ => rfl) (fun _ => rfl) hs.unused

theorem session_bottom {s : Machine} (idle : s.kernel.mlfqFlag = false)
    (untouched : Untouched s.kernel) {m : Int} (levels : (last.val : Int) = m - 1)
    (low : 1 ≤ last.val) : Bottom n last (session s m n).kernel := by
  obtain ⟨hm, hn, -, -, -⟩ := start_idle m n idle
  have away : ∀ i, (s.kernel.info i).priority ≠ last.val := by
    intro i
    have := (untouched i).2.1
    omega
  constructor
  · rw [levels]
    exact congrArg (· - 1) hm.symm
  · exact hn
  · intro i
    rw [session_queue idle, session_info, if_neg (away i)]
    rfl
  · intro i level
    rw [session_info] at level
    exact (away i level).elim
  · intro i _
    rw [session_info]
    exact (untouched i).2.2
  · intro i _
    rw [session_info]
    exact (untouched i).2.1

/-- Over an undisturbed session the counts of the bottom level are below `n`,
those of the other levels are zero, and every pass of Rule 5 moves exactly the
processes for which it is the `n`-th pass at the bottom level to queue 0. -/
theorem bottom_law {s : Machine} (reach : Reachable s) (idle : s.kernel.mlfqFlag = false)
    (untouched : Untouched s.kernel) {m n : Int} (range : 2 ≤ m ∧ m ≤ mlfqMaxLevel)
    (patience : 1 ≤ n) {es : List Event} (kept : Meets step Undisturbed (session s m n) es) :
    ∃ (last : Level) (t : Machine), (last.val : Int) = m - 1 ∧
      run step (session s m n) es = .ok t ∧
      (∀ i, (t.kernel.info i).priority = last.val →
        ((t.kernel.info i).ticksAtMaxPriority : Int) < n) ∧
      (∀ i, (t.kernel.info i).priority ≠ last.val →
        (t.kernel.info i).ticksAtMaxPriority = 0) ∧
      ∀ k₁, tickBlock t.kernel t.frame.p = .ok (k₁, false) →
        ∃ k₂, ruleFive k₁ = .ok k₂ ∧
          (k₂.store.failed = k₁.store.failed → PassLaw n last k₁ k₂) := by
  have start := session_start (reachable_sound reach) idle m n
  have force : InForce (session s m n).kernel := by
    unfold InForce
    rw [start.m]
    exact ⟨by omega, range.2⟩
  obtain ⟨last, levels⟩ := force.last
  rw [start.m] at levels
  have low : 1 ≤ last.val := by omega
  obtain ⟨t, ht, ts, bottom⟩ := session_rule reach idle n ⟨by omega, range.2⟩
    (fun _ _ h => h.1) (session_bottom idle untouched levels low)
    (fun _ _ _ sound bottom undisturbed h =>
      step_bottom low patience sound bottom undisturbed h) kept
  refine ⟨last, t, levels, ht, fun i hi => (bottom.waiting i hi).1, bottom.elsewhere, ?_⟩
  intro k₁ hk₁
  have charged : Wf k₁.store ∧ Bottom n last k₁ := by
    rcases tickBlock_outcome hk₁ with ⟨rfl, -, -⟩ | ⟨i, hp, awake, hc⟩
    · exact ⟨ts.sound.wf, bottom⟩
    · have within : k₁.store.failed = t.kernel.store.failed := by
        cases hc
        rfl
      exact ⟨(charge_failed ts.sound.wf hc).1,
        charge_bottom patience ts.sound.wf bottom awake hc within⟩
  obtain ⟨k₂, hk₂, law⟩ := pass_exact low charged.1 charged.2
  exact ⟨k₂, hk₂, fun supplied => (law supplied).1⟩

/-- The first process is demoted and boosted in its second pass at the bottom level
while its child sleeps; then the child is demoted and has waited through one pass. -/
def agedRun : List Event :=
  [.iterate (select none), .fork 0 true true, .yield 0, .iterate (select none), .yield 0,
    .iterate (select none), .iterate (select none), .sleep 1 .ticks, .iterate (select none),
    .yield 1, .iterate (select none), .yield 1, .iterate (select none), .iterate (select none),
    .yield 0]

theorem bottom_law_boosted :
    ∃ t k₁ k₂, run step (session (boot [0, 1, 2, 3, 4, 5]) 2 2) agedRun = .ok t ∧
      (t.kernel.log.count (.demoted 0 0) = 1 ∧ t.kernel.log.count (.boosted 0 1) = 1 ∧
        (t.kernel.info 1).priority = 1 ∧ passesSince 1 1 t.kernel.log = 1) ∧
      ((∀ i, (t.kernel.info i).priority = 1 →
          ((t.kernel.info i).ticksAtMaxPriority : Int) < 2) ∧
        ∀ i, (t.kernel.info i).priority ≠ 1 → (t.kernel.info i).ticksAtMaxPriority = 0) ∧
      tickBlock t.kernel t.frame.p = .ok (k₁, false) ∧ ruleFive k₁ = .ok k₂ ∧
      PassLaw 2 1 k₁ k₂ ∧ (k₂.info 1).priority = 0 := by
  have fresh : Untouched (boot [0, 1, 2, 3, 4, 5]).kernel := by
    intro i
    rw [boot_info]
    exact ⟨rfl, rfl, rfl⟩
  have kept : Meets step Undisturbed (session (boot [0, 1, 2, 3, 4, 5]) 2 2) agedRun := by
    decide +kernel
  obtain ⟨last, t, bottom, ht, waiting, elsewhere, pass⟩ :=
    bottom_law (boot_reachable (by decide)) rfl fresh (by decide) (by decide) kept
  have level : last.val = 1 := by omega
  obtain rfl : last = 1 := Fin.ext level
  have seen : Yields (run step (session (boot [0, 1, 2, 3, 4, 5]) 2 2) agedRun) fun t =>
      (t.kernel.log.count (.demoted 0 0) = 1 ∧ t.kernel.log.count (.boosted 0 1) = 1 ∧
        (t.kernel.info 1).priority = 1 ∧ passesSince 1 1 t.kernel.log = 1) ∧
      Yields (tickBlock t.kernel t.frame.p) fun r => r.2 = false ∧
        Yields (ruleFive r.1) fun k₂ => k₂.store.failed = r.1.store.failed ∧
          (k₂.info 1).priority = 0 := by
    decide +kernel
  obtain ⟨moved, ⟨k₁, -⟩, tick, rfl, k₂, five, supplied, top⟩ := seen.of_ok ht
  obtain ⟨r, hr, law⟩ := pass k₁ tick
  obtain rfl : r = k₂ := Except.ok.inj (hr.symm.trans five)
  exact ⟨t, k₁, r, ht, moved, ⟨waiting, elsewhere⟩, tick, five, law supplied, top⟩

end BottomAging
