import Xv6.Lib.Updates
import Xv6.SchedulerRuns

/-!
# What each block of the scheduler can do

Inversion of the tick block, of a Rule 5 visit and of a turn of the admission
scan, and the rule that lifts a property from the blocks to a whole iteration.
-/

namespace SchedulerBlocks

open ProcTable QueueStore FeedbackScheduler SchedulerRuns Outcomes LinkedSegments

/-- The marks that the blocks before the dispatch leave in the log. -/
def byBlock : Mark → Bool
  | .charged _ _ | .spent _ _ | .demoted _ _ | .aged _ _ | .boosted _ _ | .passed
  | .scanned _ | .admitted _ => true
  | _ => false

section Projections
variable (k : Kernel) (i j : Slot) (info : MLFQInfoReport) (s : Store) (mark : Mark)

@[simp] theorem note_info : (k.note mark).info = k.info := rfl
@[simp] theorem note_store : (k.note mark).store = k.store := rfl
@[simp] theorem note_proc : (k.note mark).proc = k.proc := rfl
@[simp] theorem note_log : (k.note mark).log = mark :: k.log := rfl
@[simp] theorem note_m : (k.note mark).m = k.m := rfl
@[simp] theorem note_n : (k.note mark).n = k.n := rfl
@[simp] theorem note_flag : (k.note mark).mlfqFlag = k.mlfqFlag := rfl

@[simp] theorem setStore_info : (k.setStore s).info = k.info := rfl
@[simp] theorem setStore_store : (k.setStore s).store = s := rfl
@[simp] theorem setStore_proc : (k.setStore s).proc = k.proc := rfl
@[simp] theorem setStore_log : (k.setStore s).log = k.log := rfl
@[simp] theorem setStore_m : (k.setStore s).m = k.m := rfl
@[simp] theorem setStore_n : (k.setStore s).n = k.n := rfl
@[simp] theorem setStore_flag : (k.setStore s).mlfqFlag = k.mlfqFlag := rfl

@[simp] theorem setInfo_store : (k.setInfo i info).store = k.store := rfl
@[simp] theorem setInfo_log : (k.setInfo i info).log = k.log := rfl
@[simp] theorem setInfo_m : (k.setInfo i info).m = k.m := rfl
@[simp] theorem setInfo_n : (k.setInfo i info).n = k.n := rfl
@[simp] theorem setInfo_flag : (k.setInfo i info).mlfqFlag = k.mlfqFlag := rfl

@[simp] theorem setInfo_info : (k.setInfo i info).info = Function.update k.info i info := by
  funext j
  by_cases h : j = i
  · subst h
    simp [Kernel.info, Kernel.setInfo]
  · simp [Kernel.info, Kernel.setInfo, h]

/-- A field of the records when that of process `i` is new. -/
theorem update_field {A : Type} (g : MLFQInfoReport → A) (k : Kernel) (i : Slot)
    (info : MLFQInfoReport) (j : Slot) :
    g (Function.update k.info i info j) = if j = i then g info else g (k.info j) := by
  by_cases h : j = i
  · subst h
    simp
  · simp [h]

/-- A field that the new record of process `i` does not change. -/
theorem update_reads {A : Type} (g : MLFQInfoReport → A) {k : Kernel} {i : Slot}
    {info : MLFQInfoReport} (same : g info = g (k.info i)) (j : Slot) :
    g (Function.update k.info i info j) = g (k.info j) :=
  Updates.update_reads g same j

@[simp] theorem setInfo_state :
    ((k.setInfo i info).proc j).state = (k.proc j).state := by
  by_cases h : j = i
  · subst h
    simp [Kernel.setInfo]
  · simp [Kernel.setInfo, h]

@[simp] theorem setInfo_context :
    ((k.setInfo i info).proc j).context = (k.proc j).context := by
  by_cases h : j = i
  · subst h
    simp [Kernel.setInfo]
  · simp [Kernel.setInfo, h]

@[simp] theorem setTable_store (t : Table) : (Kernel.setTable k t).store = k.store := rfl
@[simp] theorem setTable_log (t : Table) : (Kernel.setTable k t).log = k.log := rfl
@[simp] theorem setTable_m (t : Table) : (Kernel.setTable k t).m = k.m := rfl
@[simp] theorem setTable_n (t : Table) : (Kernel.setTable k t).n = k.n := rfl
@[simp] theorem setTable_flag (t : Table) :
    (Kernel.setTable k t).mlfqFlag = k.mlfqFlag := rfl
@[simp] theorem setTable_proc (t : Table) : (Kernel.setTable k t).proc = t.proc := rfl

end Projections

@[simp] theorem dispatch_none (k : Kernel) : dispatch k none = k := rfl

@[simp] theorem dispatch_store (k : Kernel) (p : Option Slot) :
    (dispatch k p).store = k.store := by cases p <;> rfl

@[simp] theorem dispatch_m (k : Kernel) (p : Option Slot) : (dispatch k p).m = k.m := by
  cases p <;> rfl

@[simp] theorem dispatch_n (k : Kernel) (p : Option Slot) : (dispatch k p).n = k.n := by
  cases p <;> rfl

@[simp] theorem dispatch_flag (k : Kernel) (p : Option Slot) :
    (dispatch k p).mlfqFlag = k.mlfqFlag := by cases p <;> rfl

@[simp] theorem dispatch_info (k : Kernel) (p : Option Slot) :
    (dispatch k p).info = k.info := by
  cases p with
  | none => rfl
  | some i =>
    funext j
    by_cases h : j = i
    · subst h
      simp [Kernel.info, dispatch, Kernel.note, swtchTo]
    · simp [Kernel.info, dispatch, Kernel.note, h]

theorem dispatch_state (k : Kernel) (i j : Slot) :
    ((dispatch k (some i)).proc j).state =
      if j = i then .running else (k.proc j).state := by
  by_cases h : j = i
  · subst h
    simp [dispatch, Kernel.note, swtchTo]
  · simp [dispatch, Kernel.note, h]

theorem dispatch_log (k : Kernel) (i : Slot) :
    (dispatch k (some i)).log = .dispatched i (k.proc i).state :: k.log := rfl

/-- What ignores switches reads the same in the log after a dispatch. -/
theorem dispatch_reads {A : Type} {f : List Mark → A}
    (ignores : ∀ i state log, f (.dispatched i state :: log) = f log)
    (k : Kernel) (p : Option Slot) : f (dispatch k p).log = f k.log := by
  cases p with
  | none => rfl
  | some i => exact ignores i _ _

theorem quiet_reads {A : Type} {f : List Mark → A}
    (ignores : ∀ i state log, f (.dispatched i state :: log) = f log)
    {k k' : Kernel} (q : Quiet k k') : f k'.log = f k.log := by
  rcases q.log with h | ⟨i, h⟩
  · rw [h]
  · rw [h]
    exact ignores i _ _

section Sessions
variable {k : Kernel} (m n : Int)

@[simp] theorem start_info : (startMLFQ k m n).2.info = k.info := by
  unfold startMLFQ
  split <;> rfl

@[simp] theorem start_proc : (startMLFQ k m n).2.proc = k.proc := by
  unfold startMLFQ
  split <;> rfl

theorem start_idle (idle : k.mlfqFlag = false) :
    (startMLFQ k m n).2.m = m ∧ (startMLFQ k m n).2.n = n ∧
      (startMLFQ k m n).2.mlfqFlag = true ∧
      (startMLFQ k m n).2.store = { k.store with head := fun _ => none } ∧
      (startMLFQ k m n).2.log = .started m n :: k.log := by
  simp [startMLFQ, idle]

@[simp] theorem stop_info : (stopMLFQ k).2.info = k.info := by
  unfold stopMLFQ
  split <;> rfl

@[simp] theorem stop_proc : (stopMLFQ k).2.proc = k.proc := by
  unfold stopMLFQ
  split <;> rfl

theorem stop_running (running : k.mlfqFlag = true) :
    (stopMLFQ k).2.m = k.m ∧ (stopMLFQ k).2.n = k.n ∧ (stopMLFQ k).2.mlfqFlag = false ∧
      (stopMLFQ k).2.store = k.store ∧ (stopMLFQ k).2.log = .stopped :: k.log := by
  simp [stopMLFQ, running]

end Sessions

theorem mlfqIndex_eq_ok {i : Int} {l : Level} : mlfqIndex i = .ok l ↔ i = l.val := by
  unfold mlfqIndex
  split
  · rename_i h
    rw [Except.ok.injEq, Fin.ext_iff]
    constructor
    · intro e
      simp only at e
      omega
    · intro e
      simp only
      omega
  · rename_i h
    have hl := l.isLt
    constructor
    · intro e
      cases e
    · intro e
      omega

theorem mlfqIndex_error {i : Int} (h : ¬ (0 ≤ i ∧ i < mlfqMaxLevel)) :
    mlfqIndex i = .error .outOfBounds := by
  simp only [mlfqIndex, dif_neg h]

/-- One more tick at level `l`. -/
def tick (info : MLFQInfoReport) (l : Level) : MLFQInfoReport :=
  { info with
    ticks := Function.update info.ticks l (info.ticks l + 1),
    tickCounts := Function.update info.tickCounts l (info.tickCounts l + 1) }

/-- The quantum counter of level `l` starts again. -/
def restart (info : MLFQInfoReport) (l : Level) : MLFQInfoReport :=
  { info with ticks := Function.update info.ticks l 0 }

def descend (info : MLFQInfoReport) (l : Level) : MLFQInfoReport :=
  { restart info l with priority := info.priority + 1 }

inductive ChargeOutcome (k : Kernel) (i : Slot) : Kernel → Bool → Prop
  | within (l : Level) (level : (k.info i).priority = l.val)
      (room : (k.info i).ticks l + 1 < 2 * (l.val + 1)) :
      ChargeOutcome k i ((k.setInfo i (tick (k.info i) l)).note (.charged i l)) false
  | spent (l : Level) (level : (k.info i).priority = l.val)
      (full : 2 * (l.val + 1) ≤ (k.info i).ticks l + 1) (bottom : k.m - 1 ≤ l.val) :
      ChargeOutcome k i
        ((((k.setInfo i (tick (k.info i) l)).note (.charged i l)).setInfo i
          (restart (tick (k.info i) l) l)).note (.spent i l)) true
  | demoted (l lower : Level) (s₁ s₂ : Store) (level : (k.info i).priority = l.val)
      (full : 2 * (l.val + 1) ≤ (k.info i).ticks l + 1) (above : (l.val : Int) < k.m - 1)
      (below : lower.val = l.val + 1) (enque : mlfqEnque k.store lower i = .ok s₁)
      (delete : mlfqDelete s₁ l i = .ok s₂) :
      ChargeOutcome k i
        (((((k.setInfo i (tick (k.info i) l)).note (.charged i l)).setStore s₂).setInfo i
          (descend (tick (k.info i) l) l)).note (.demoted i l)) true

theorem chargeTick_outcome {k k' : Kernel} {i : Slot} {b : Bool}
    (h : chargeTick k i = .ok (k', b)) : ChargeOutcome k i k' b := by
  obtain ⟨l, hl, h⟩ := bind_eq_ok.mp h
  have level : (k.info i).priority = l.val := by
    have := mlfqIndex_eq_ok.mp hl
    omega
  simp only [Function.update_self] at h
  split at h
  · rename_i full
    rw [level] at full
    split at h
    · rename_i above
      rw [level] at above
      obtain ⟨lower, hlower, h⟩ := bind_eq_ok.mp h
      obtain ⟨s₁, h₁, h⟩ := bind_eq_ok.mp h
      obtain ⟨s₂, h₂, h⟩ := bind_eq_ok.mp h
      have below : lower.val = l.val + 1 := by
        have := mlfqIndex_eq_ok.mp hlower
        omega
      obtain ⟨rfl, rfl⟩ := Prod.mk.inj (pure_eq_ok.mp h)
      exact .demoted l lower s₁ s₂ level full above below h₁ h₂
    · rename_i bottom
      rw [level] at bottom
      obtain ⟨rfl, rfl⟩ := Prod.mk.inj (pure_eq_ok.mp h)
      exact .spent l level full (not_lt.mp bottom)
  · rename_i room
    rw [level] at room
    obtain ⟨rfl, rfl⟩ := Prod.mk.inj (pure_eq_ok.mp h)
    exact .within l level (not_le.mp room)

/-- What no block of the scheduler before the dispatch changes. -/
structure SameSettings (k k' : Kernel) : Prop where
  m : k'.m = k.m
  n : k'.n = k.n
  flag : k'.mlfqFlag = k.mlfqFlag
  state : ∀ j, (k'.proc j).state = (k.proc j).state
  context : ∀ j, (k'.proc j).context = (k.proc j).context

theorem charge_settings {k k' : Kernel} {i : Slot} {b : Bool} (h : ChargeOutcome k i k' b) :
    SameSettings k k' := by
  cases h <;> exact ⟨rfl, rfl, rfl, fun j => by simp, fun j => by simp⟩

/-- The tick block charges `p` or does nothing. -/
theorem tickBlock_outcome {k k' : Kernel} {p : Option Slot} {b : Bool}
    (h : tickBlock k p = .ok (k', b)) :
    (k' = k ∧ b = false ∧ ∀ i, p = some i →
      (k.proc i).state ≠ .runnable ∧ (k.proc i).state ≠ .running) ∨
    ∃ i, p = some i ∧
      ((k.proc i).state = .runnable ∨ (k.proc i).state = .running) ∧
      ChargeOutcome k i k' b := by
  cases p with
  | none =>
    obtain ⟨rfl, rfl⟩ := Prod.mk.inj (Except.ok.inj h)
    exact Or.inl ⟨rfl, rfl, by simp⟩
  | some i =>
    simp only [tickBlock] at h
    split at h
    · rename_i hs
      exact Or.inr ⟨i, rfl, hs, chargeTick_outcome h⟩
    · rename_i hs
      obtain ⟨rfl, rfl⟩ := Prod.mk.inj (Except.ok.inj h)
      rw [not_or] at hs
      refine Or.inl ⟨rfl, rfl, ?_⟩
      intro j hj
      exact Option.some.inj hj ▸ hs

/-- One more tick at the bottom level `l`. -/
def age (info : MLFQInfoReport) (l : Level) : MLFQInfoReport :=
  { info with
    ticksAtMaxPriority := info.ticksAtMaxPriority + 1,
    tickCounts := Function.update info.tickCounts l (info.tickCounts l + 1) }

/-- Back to the top queue with both quantum counters cleared. -/
def ascend (info : MLFQInfoReport) (l : Level) : MLFQInfoReport :=
  { info with
    ticksAtMaxPriority := 0, priority := 0,
    ticks := Function.update (Function.update info.ticks l 0) 0 0 }

inductive VisitOutcome (k : Kernel) (last : Level) (i : Slot) : Kernel → Prop
  | skipped (elsewhere : (k.info i).priority ≠ last.val) : VisitOutcome k last i k
  | aged (bottom : (last.val : Int) = k.m - 1) (level : (k.info i).priority = last.val)
      (patient : ((k.info i).ticksAtMaxPriority : Int) + 1 < k.n) :
      VisitOutcome k last i ((k.setInfo i (age (k.info i) last)).note (.aged i last))
  | boosted (s₁ s₂ : Store) (bottom : (last.val : Int) = k.m - 1)
      (level : (k.info i).priority = last.val)
      (due : k.n ≤ ((k.info i).ticksAtMaxPriority : Int) + 1)
      (enque : mlfqEnque k.store 0 i = .ok s₁) (delete : mlfqDelete s₁ last i = .ok s₂) :
      VisitOutcome k last i
        (((((k.setInfo i (age (k.info i) last)).note (.aged i last)).setStore s₂).setInfo i
          (ascend (age (k.info i) last) last)).note (.boosted i last))

theorem visit_outcome {k k' : Kernel} {last : Level} {i : Slot}
    (bottom : (last.val : Int) = k.m - 1) (h : ruleFiveVisit k last i = .ok k') :
    VisitOutcome k last i k' := by
  simp only [ruleFiveVisit] at h
  split at h
  · rename_i here
    obtain ⟨l, hl, h⟩ := bind_eq_ok.mp h
    have level : (k.info i).priority = last.val := by omega
    have same : l = last := by
      have := mlfqIndex_eq_ok.mp hl
      exact Fin.ext (by omega)
    subst same
    split at h
    · rename_i due
      obtain ⟨s₁, h₁, h⟩ := bind_eq_ok.mp h
      obtain ⟨s₂, h₂, h⟩ := bind_eq_ok.mp h
      rw [← pure_eq_ok.mp h]
      exact .boosted s₁ s₂ bottom level (by simpa using due) h₁ h₂
    · rename_i patient
      rw [← pure_eq_ok.mp h]
      exact .aged bottom level (by simpa using patient)
  · rename_i elsewhere
    rw [← pure_eq_ok.mp h]
    exact .skipped (by omega)

theorem visit_settings {k k' : Kernel} {last : Level} {i : Slot}
    (h : VisitOutcome k last i k') : SameSettings k k' := by
  cases h <;> exact ⟨rfl, rfl, rfl, fun j => by simp, fun j => by simp⟩

inductive AdmitOutcome (k : Kernel) (i : Slot) : Kernel → Prop
  | idle (h : (k.proc i).state ≠ .runnable) : AdmitOutcome k i k
  | known (runnable : (k.proc i).state = .runnable) (h : (k.info i).addedToMLFQ = true) :
      AdmitOutcome k i (k.note (.scanned i))
  | admitted (s₁ : Store) (runnable : (k.proc i).state = .runnable)
      (h : (k.info i).addedToMLFQ = false) (enque : mlfqEnque k.store 0 i = .ok s₁) :
      AdmitOutcome k i
        ((((k.setStore s₁).setInfo i { k.info i with addedToMLFQ := true }).note
          (.admitted i)).note (.scanned i))

theorem admit_outcome {k k' : Kernel} {i : Slot} (h : admissionTurn k i = .ok k') :
    AdmitOutcome k i k' := by
  unfold admissionTurn at h
  split at h
  · rename_i runnable
    split at h
    · rename_i known
      rw [← Except.ok.inj h]
      exact .known runnable known
    · rename_i unknown
      obtain ⟨s₁, h₁, h⟩ := bind_eq_ok.mp h
      rw [← pure_eq_ok.mp h]
      exact .admitted s₁ runnable (by simpa using unknown) h₁
  · rename_i idle
    rw [← Except.ok.inj h]
    exact .idle idle

theorem admit_settings {k k' : Kernel} {i : Slot} (h : AdmitOutcome k i k') :
    SameSettings k k' := by
  cases h <;> exact ⟨rfl, rfl, rfl, fun j => by simp, fun j => by simp⟩

theorem ruleFiveLoop_keeps {I : Kernel → Prop} {last : Level}
    (visit : ∀ k i k', I k → VisitOutcome k last i k' → I k')
    {fuel : Nat} {k k' : Kernel} {temp : Option Addr} (bottom : (last.val : Int) = k.m - 1)
    (start : I k) (h : ruleFiveLoop last fuel k temp = .ok k') : I k' := by
  induction fuel generalizing k temp with
  | zero =>
    cases temp with
    | none => exact Except.ok.inj h ▸ start
    | some a => cases h
  | succ fuel ih =>
    cases temp with
    | none => exact Except.ok.inj h ▸ start
    | some a =>
      obtain ⟨r, hr, h⟩ := bind_eq_ok.mp h
      have ho := visit_outcome bottom hr
      have bottom' : (last.val : Int) = r.m - 1 := by
        rw [(visit_settings ho).m]
        exact bottom
      exact ih bottom' (visit k _ r start ho) h

theorem ruleFive_keeps {I : Kernel → Prop}
    (visit : ∀ k last i k', I k → VisitOutcome k last i k' → I k')
    (pass : ∀ k, I k → I (k.note .passed))
    {k k' : Kernel} (start : I k) (h : ruleFive k = .ok k') : I k' := by
  obtain ⟨last, hl, h⟩ := bind_eq_ok.mp h
  obtain ⟨k₀, hk₀, h⟩ := bind_eq_ok.mp h
  rw [← pure_eq_ok.mp h]
  refine pass k₀ (ruleFiveLoop_keeps (fun k i k' hk => visit k last i k' hk) ?_ start hk₀)
  exact (mlfqIndex_eq_ok.mp hl).symm

theorem admissionScan_keeps {I : Kernel → Prop}
    (scan : ∀ k i k', I k → AdmitOutcome k i k' → I k')
    {k k' : Kernel} (start : I k) (h : admissionScan k = .ok k') : I k' :=
  foldlM_invariant (fun k i k' hk hi => scan k i k' hk (admit_outcome hi)) start h

/-- The parts of an iteration that does not end in the tick block. -/
theorem iteration_parts {choose : Selection} {k k' : Kernel} {f f' : Frame}
    (h : iteration choose k f = .ok (k', f')) :
    (∃ i, f.p = some i ∧
      ((k.proc i).state = .runnable ∨ (k.proc i).state = .running) ∧
      ChargeOutcome k i k' true ∧ f' = { f with p := none }) ∨
    ∃ k₁ k₂ k₃,
      ((k₁ = k ∧ ∀ i, f.p = some i →
          (k.proc i).state ≠ .runnable ∧ (k.proc i).state ≠ .running) ∨
        ∃ i, f.p = some i ∧
          ((k.proc i).state = .runnable ∨ (k.proc i).state = .running) ∧
          ChargeOutcome k i k₁ false) ∧
      ruleFive k₁ = .ok k₂ ∧ admissionScan k₂ = .ok k₃ ∧
      f' = selectionBlock choose k₃ f ∧ k' = dispatch k₃ f'.p := by
  obtain ⟨⟨k₁, b⟩, ht, h⟩ := bind_eq_ok.mp h
  cases b with
  | true =>
    obtain ⟨rfl, rfl⟩ := Prod.mk.inj (pure_eq_ok.mp h)
    rcases tickBlock_outcome ht with ⟨-, hb, -⟩ | ⟨i, hp, hs, hc⟩
    · cases hb
    · exact Or.inl ⟨i, hp, hs, hc, rfl⟩
  | false =>
    obtain ⟨k₂, h₂, h⟩ := bind_eq_ok.mp h
    obtain ⟨k₃, h₃, h⟩ := bind_eq_ok.mp h
    obtain ⟨rfl, rfl⟩ := Prod.mk.inj (pure_eq_ok.mp h)
    refine Or.inr ⟨k₁, k₂, k₃, ?_, h₂, h₃, rfl, rfl⟩
    rcases tickBlock_outcome ht with ⟨rfl, -, hn⟩ | ⟨i, hp, hs, hc⟩
    · exact Or.inl ⟨rfl, hn⟩
    · exact Or.inr ⟨i, hp, hs, hc⟩

/-- The iteration rule: what every block keeps, the iteration keeps. -/
theorem iteration_keeps {I : Kernel → Prop}
    (charge : ∀ k i k' b, I k → ChargeOutcome k i k' b → I k')
    (visit : ∀ k last i k', I k → VisitOutcome k last i k' → I k')
    (pass : ∀ k, I k → I (k.note .passed))
    (scan : ∀ k i k', I k → AdmitOutcome k i k' → I k')
    (switch : ∀ k p, I k → I (dispatch k p))
    {choose : Selection} {k k' : Kernel} {f f' : Frame} (start : I k)
    (h : iteration choose k f = .ok (k', f')) : I k' := by
  rcases iteration_parts h with ⟨i, -, -, hc, -⟩ | ⟨k₁, k₂, k₃, h₁, h₂, h₃, -, rfl⟩
  · exact charge k i k' true start hc
  have start₁ : I k₁ := by
    rcases h₁ with ⟨rfl, -⟩ | ⟨i, -, -, hc⟩
    · exact start
    · exact charge k i k₁ false start hc
  have start₂ : I k₂ := ruleFive_keeps visit pass start₁ h₂
  have start₃ : I k₃ := admissionScan_keeps scan start₂ h₃
  exact switch k₃ _ start₃

theorem iteration_settings {choose : Selection} {k k' : Kernel} {f f' : Frame}
    (h : iteration choose k f = .ok (k', f')) :
    k'.m = k.m ∧ k'.n = k.n ∧ k'.mlfqFlag = k.mlfqFlag := by
  refine iteration_keeps (I := fun r => r.m = k.m ∧ r.n = k.n ∧ r.mlfqFlag = k.mlfqFlag)
    ?_ ?_ (fun _ h => h) ?_ ?_ ⟨rfl, rfl, rfl⟩ h
  · intro r i r' b hr hc
    obtain ⟨hm, hn, hf, -⟩ := charge_settings hc
    exact ⟨hm.trans hr.1, hn.trans hr.2.1, hf.trans hr.2.2⟩
  · intro r last i r' hr hv
    obtain ⟨hm, hn, hf, -⟩ := visit_settings hv
    exact ⟨hm.trans hr.1, hn.trans hr.2.1, hf.trans hr.2.2⟩
  · intro r i r' hr ha
    obtain ⟨hm, hn, hf, -⟩ := admit_settings ha
    exact ⟨hm.trans hr.1, hn.trans hr.2.1, hf.trans hr.2.2⟩
  · intro r p hr
    simpa using hr

/-- Slot `j` was freed or handed out, and nothing else changed. -/
structure Recycled (k k' : Kernel) (j : Slot) : Prop where
  m : k'.m = k.m
  n : k'.n = k.n
  flag : k'.mlfqFlag = k.mlfqFlag
  store : k'.store = k.store
  others : ∀ i, i ≠ j → k'.proc i = k.proc i
  fresh : k'.info j = .zero
  log : k'.log = .reset j :: k.log

theorem Recycled.other_info {k k' : Kernel} {i j : Slot} (r : Recycled k k' j) (h : i ≠ j) :
    k'.info i = k.info i := by
  rw [Kernel.info, r.others i h]
  rfl

theorem recycled_of_table {k : Kernel} {t : Table} {j : Slot}
    (others : ∀ i, i ≠ j → t.proc i = k.proc i) (fresh : (t.proc j).mlfqInfo = .zero) :
    Recycled k ((Kernel.setTable k t).note (.reset j)) j :=
  ⟨rfl, rfl, rfl, rfl, others, fresh, rfl⟩

/-- The step rule: what every block and every other event keeps, a step keeps. -/
theorem step_keeps {I : Kernel → Prop}
    (charge : ∀ k i k' b, I k → ChargeOutcome k i k' b → I k')
    (visit : ∀ k last i k', I k → VisitOutcome k last i k' → I k')
    (pass : ∀ k, I k → I (k.note .passed))
    (scan : ∀ k i k', I k → AdmitOutcome k i k' → I k')
    (switch : ∀ k p, I k → I (dispatch k p))
    (quiet : ∀ k k', I k → Quiet k k' → I k')
    (recycle : ∀ k k' j, I k → Recycled k k' j → I k')
    (start : ∀ k m n, I k → k.mlfqFlag = false → I (startMLFQ k m n).2)
    (stop : ∀ k, I k → k.mlfqFlag = true → I (stopMLFQ k).2)
    (lend : ∀ k a pages, I k → k.store.freelist = a :: pages →
      I (k.setStore (k.store.setFreelist pages)))
    (repay : ∀ k a, I k → a ∉ k.store.freelist → a ∉ k.store.taken →
      I (k.setStore (k.store.setFreelist (a :: k.store.freelist))))
    {s s' : Machine} {e : Event} (hs : I s.kernel) (h : step s e = .ok s') :
    I s'.kernel := by
  cases step_effect h with
  | iterated flag hi => exact iteration_keeps charge visit pass scan switch hs hi
  | returned => exact hs
  | quiet other q => exact quiet _ _ hs q
  | recycled j others fresh => exact recycle _ _ j hs (recycled_of_table others fresh)
  | started m n flag => exact start _ m n hs flag
  | stopped flag => exact stop _ hs flag
  | lent hf => exact lend _ _ _ hs hf
  | repaid free other => exact repay _ _ hs free other

end SchedulerBlocks
