import Mathlib.Order.Basic

/-!
# Runs of a step function over a list of events

A step consumes one event and either yields the next state or a fault. Runs
are left folds of that step, so a history is an ordinary list and every
nondeterministic choice is part of an event. `Meets` says that each step of a
run is taken in a state and with an event that satisfy a condition. A run is
maximal when no event is possible at its end.
-/

namespace EventRuns

universe u v w

variable {S : Type u} {E : Type v} {F : Type w}

/-- Perform the events from left to right, stopping at the first fault. -/
def run (step : S → E → Except F S) : S → List E → Except F S
  | s, [] => .ok s
  | s, e :: es => match step s e with
    | .ok t => run step t es
    | .error x => .error x

/-- Every step of the run from `s` over the given events satisfies `G`. -/
def Meets (step : S → E → Except F S) (G : S → E → Prop) : S → List E → Prop
  | _, [] => True
  | s, e :: es => G s e ∧ ∀ t, step s e = .ok t → Meets step G t es

variable {step : S → E → Except F S}

instance decidableMeets {G : S → E → Prop} [∀ s e, Decidable (G s e)] :
    ∀ s es, Decidable (Meets step G s es)
  | _, [] => isTrue trivial
  | s, e :: es => match h : step s e with
    | .ok t =>
      let _ := decidableMeets (G := G) t es
      decidable_of_iff (G s e ∧ Meets step G t es) (by simp [Meets, h])
    | .error _ => decidable_of_iff (G s e) (by simp [Meets, h])

attribute [local simp] run Meets

@[simp] theorem run_nil (s : S) : run step s [] = .ok s := rfl

theorem run_cons_ok {s t : S} {e : E} {es : List E} :
    run step s (e :: es) = .ok t ↔ ∃ r, step s e = .ok r ∧ run step r es = .ok t := by
  cases h : step s e with
  | ok r => simp [h]
  | error x => simp [h]

theorem run_append_ok {s t : S} {es fs : List E} :
    run step s (es ++ fs) = .ok t ↔
      ∃ r, run step s es = .ok r ∧ run step r fs = .ok t := by
  induction es generalizing s with
  | nil => simp
  | cons e es ih =>
    rw [List.cons_append, run_cons_ok]
    constructor
    · rintro ⟨r, hr, ht⟩
      obtain ⟨q, hq, hqt⟩ := ih.mp ht
      exact ⟨q, run_cons_ok.mpr ⟨r, hr, hq⟩, hqt⟩
    · rintro ⟨q, hq, hqt⟩
      obtain ⟨r, hr, hrq⟩ := run_cons_ok.mp hq
      exact ⟨r, hr, ih.mpr ⟨q, hrq, hqt⟩⟩

theorem run_append_of_ok {s t : S} {es fs : List E} (h : run step s es = .ok t) :
    run step s (es ++ fs) = run step t fs := by
  induction es generalizing s with
  | nil =>
    cases h
    rfl
  | cons e es ih =>
    obtain ⟨r, hr, ht⟩ := run_cons_ok.mp h
    simp only [List.cons_append, run, hr]
    exact ih ht

theorem meets_append {G : S → E → Prop} {s : S} {es fs : List E} :
    Meets step G s (es ++ fs) ↔
      Meets step G s es ∧ ∀ t, run step s es = .ok t → Meets step G t fs := by
  induction es generalizing s with
  | nil => simp
  | cons e es ih =>
    cases h : step s e with
    | ok r => simp [h, ih, and_assoc]
    | error x => simp [h]

theorem Meets.mono {G H : S → E → Prop} (weaker : ∀ s e, G s e → H s e)
    {s : S} {es : List E} (h : Meets step G s es) : Meets step H s es := by
  induction es generalizing s with
  | nil => trivial
  | cons e es ih => exact ⟨weaker s e h.1, fun t ht => ih (h.2 t ht)⟩

/-- What a condition on the steps gives wherever an invariant holds. -/
theorem Meets.imp {G H : S → E → Prop} {I : S → Prop}
    (keep : ∀ s e t, I s → G s e → step s e = .ok t → I t)
    (gives : ∀ s e, I s → G s e → H s e) {s : S} {es : List E} (start : I s)
    (meets : Meets step G s es) : Meets step H s es := by
  induction es generalizing s with
  | nil => trivial
  | cons e es ih =>
    obtain ⟨here, rest⟩ := meets
    exact ⟨gives s e start here, fun t ht => ih (keep s e t start here ht) (rest t ht)⟩

/-- The run rule: what each step keeps under `G`, the whole run keeps. -/
theorem run_invariant {G : S → E → Prop} {I : S → Prop}
    (keep : ∀ s e t, I s → G s e → step s e = .ok t → I t)
    {s t : S} {es : List E} (start : I s) (meets : Meets step G s es)
    (h : run step s es = .ok t) : I t := by
  induction es generalizing s with
  | nil =>
    cases h
    exact start
  | cons e es ih =>
    obtain ⟨r, hr, ht⟩ := run_cons_ok.mp h
    exact ih (keep s e r start meets.1 hr) (meets.2 r hr) ht

/-- The run rule without a condition on the steps. -/
theorem run_invariant_all {I : S → Prop}
    (keep : ∀ s e t, I s → step s e = .ok t → I t)
    {s t : S} {es : List E} (start : I s) (h : run step s es = .ok t) : I t := by
  induction es generalizing s with
  | nil =>
    cases h
    exact start
  | cons e es ih =>
    obtain ⟨r, hr, ht⟩ := run_cons_ok.mp h
    exact ih (keep s e r start hr) ht

theorem meets_true (s : S) (es : List E) : Meets step (fun _ _ => True) s es := by
  induction es generalizing s with
  | nil => trivial
  | cons e es ih => exact ⟨trivial, fun t _ => ih t⟩

/-- A run stops at a given fault exactly when one of its steps does. -/
theorem run_ne_error_iff {x : F} {s : S} {es : List E} :
    run step s es ≠ .error x ↔ Meets step (fun s e => step s e ≠ .error x) s es := by
  induction es generalizing s with
  | nil => simp
  | cons e es ih =>
    cases h : step s e with
    | ok r => simp [h, ← ih]
    | error y => simp [h]

/-- A fault that no step has wherever an invariant holds. -/
theorem run_ne_error {x : F} {I : S → Prop} (keep : ∀ s e t, I s → step s e = .ok t → I t)
    (never : ∀ s e, I s → step s e ≠ .error x) {s : S} {es : List E} (start : I s) :
    run step s es ≠ .error x := by
  apply run_ne_error_iff.mpr
  exact (meets_true s es).imp (fun s e t hI _ h => keep s e t hI h)
    (fun s e hI _ => never s e hI) start

/-- Two conditions on steps that agree wherever an invariant holds, in runs that meet
a further condition. -/
theorem meets_iff_within {B G H : S → E → Prop} {I : S → Prop}
    (keep : ∀ s e t, I s → B s e → G s e → step s e = .ok t → I t)
    (exact : ∀ s e, I s → B s e → (H s e ↔ G s e)) {s : S} {es : List E} (start : I s)
    (within : Meets step B s es) :
    Meets step H s es ↔ Meets step G s es := by
  induction es generalizing s with
  | nil => exact Iff.rfl
  | cons e es ih =>
    obtain ⟨bound, within⟩ := within
    constructor
    · rintro ⟨here, rest⟩
      have good := (exact s e start bound).mp here
      exact ⟨good, fun t ht =>
        (ih (keep s e t start bound good ht) (within t ht)).mp (rest t ht)⟩
    · rintro ⟨good, rest⟩
      refine ⟨(exact s e start bound).mpr good, fun t ht => ?_⟩
      exact (ih (keep s e t start bound good ht) (within t ht)).mpr (rest t ht)

/-- Two conditions on steps that agree wherever an invariant holds. -/
theorem meets_iff {G H : S → E → Prop} {I : S → Prop}
    (keep : ∀ s e t, I s → G s e → step s e = .ok t → I t)
    (exact : ∀ s e, I s → (H s e ↔ G s e)) {s : S} {es : List E} (start : I s) :
    Meets step H s es ↔ Meets step G s es :=
  meets_iff_within (B := fun _ _ => True) (fun s e t hI _ hG h => keep s e t hI hG h)
    (fun s e hI _ => exact s e hI) start (meets_true s es)

/-- A run does not fault when no step that meets `G` does. -/
theorem run_total {G : S → E → Prop} {I : S → Prop}
    (keep : ∀ s e, I s → G s e → ∃ t, step s e = .ok t ∧ I t)
    {s : S} {es : List E} (start : I s) (meets : Meets step G s es) :
    ∃ t, run step s es = .ok t ∧ I t := by
  induction es generalizing s with
  | nil => exact ⟨s, rfl, start⟩
  | cons e es ih =>
    obtain ⟨r, hr, hI⟩ := keep s e start meets.1
    obtain ⟨t, ht, hIt⟩ := ih hI (meets.2 r hr)
    exact ⟨t, run_cons_ok.mpr ⟨r, hr, ht⟩, hIt⟩

/-- The simulation rule: steps that follow the steps of a total abstract machine give
runs that follow its runs. -/
theorem run_simulates {A : Type*} {f : A → E → A} {G : S → E → Prop} {R : S → A → Prop}
    (follow : ∀ s a e, R s a → G s e → ∃ t, step s e = .ok t ∧ R t (f a e))
    {s : S} {a : A} {es : List E} (start : R s a) (meets : Meets step G s es) :
    ∃ t, run step s es = .ok t ∧ R t (es.foldl f a) := by
  induction es generalizing s a with
  | nil => exact ⟨s, rfl, start⟩
  | cons e es ih =>
    obtain ⟨r, hr, related⟩ := follow s a e start meets.1
    obtain ⟨t, ht, final⟩ := ih related (meets.2 r hr)
    exact ⟨t, run_cons_ok.mpr ⟨r, hr, ht⟩, final⟩

/-- A measure that no step lowers, and that a step keeps exactly when it meets
`G`, is kept by a run exactly when all its steps meet `G`. -/
theorem run_measure {O : Type*} [PartialOrder O] {G : S → E → Prop} {I : S → Prop} {μ : S → O}
    (keep : ∀ s e t, I s → step s e = .ok t → I t ∧ μ s ≤ μ t ∧ (μ t = μ s ↔ G s e))
    {s t : S} {es : List E} (start : I s) (h : run step s es = .ok t) :
    μ s ≤ μ t ∧ (μ t = μ s ↔ Meets step G s es) := by
  induction es generalizing s with
  | nil =>
    cases h
    exact ⟨le_rfl, fun _ => trivial, fun _ => rfl⟩
  | cons e es ih =>
    obtain ⟨r, hr, ht⟩ := run_cons_ok.mp h
    obtain ⟨inv, low, same⟩ := keep s e r start hr
    obtain ⟨low', same'⟩ := ih inv ht
    refine ⟨low.trans low', ?_, ?_⟩
    · intro heq
      have first : μ r = μ s := le_antisymm (low'.trans heq.le) low
      refine ⟨same.mp first, fun r' hr' => ?_⟩
      rw [hr] at hr'
      obtain rfl := Except.ok.inj hr'
      exact same'.mp (heq.trans first.symm)
    · rintro ⟨hG, rest⟩
      exact (same'.mpr (rest r hr)).trans (same.mpr hG)

/-- No event is possible any more. -/
def Final (step : S → E → Except F S) (s : S) : Prop := ∀ e t, step s e ≠ .ok t

/-- A rank that every step lowers by one is spent by the length of a run. -/
theorem run_rank {I : S → Prop} {rank : S → Nat}
    (keep : ∀ s e t, I s → step s e = .ok t → I t ∧ rank t + 1 = rank s)
    {s t : S} {es : List E} (start : I s) (h : run step s es = .ok t) :
    I t ∧ rank t + es.length = rank s := by
  induction es generalizing s with
  | nil =>
    cases h
    exact ⟨start, rfl⟩
  | cons e es ih =>
    obtain ⟨r, hr, ht⟩ := run_cons_ok.mp h
    obtain ⟨inv, down⟩ := keep s e r start hr
    obtain ⟨inv', spent⟩ := ih inv ht
    refine ⟨inv', ?_⟩
    simp only [List.length_cons]
    omega

/-- With such a rank every run can be carried on to a maximal one. -/
theorem exists_final {I : S → Prop} {rank : S → Nat}
    (keep : ∀ s e t, I s → step s e = .ok t → I t ∧ rank t + 1 = rank s)
    {s : S} (start : I s) : ∃ es t, run step s es = .ok t ∧ Final step t := by
  induction hr : rank s using Nat.strongRecOn generalizing s with
  | ind n ih =>
    by_cases final : Final step s
    · exact ⟨[], s, rfl, final⟩
    · simp only [Final, not_forall, not_not] at final
      obtain ⟨e, t, step⟩ := final
      obtain ⟨inv, down⟩ := keep s e t start step
      obtain ⟨es, u, run, final⟩ := ih (rank t) (by omega) inv rfl
      exact ⟨e :: es, u, run_cons_ok.mpr ⟨t, step, run⟩, final⟩

end EventRuns
