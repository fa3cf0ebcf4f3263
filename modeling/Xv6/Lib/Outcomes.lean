import Mathlib.Data.List.Basic

/-!
# Postconditions of computations that may fault

`Yields x P` is total: the computation returns a value and the value satisfies
`P`. A faulting or exhausted computation yields nothing. The rules compose
postconditions along binds and left folds. `Agrees` compares two computations
that differ in their faults and in what they return.
-/

namespace Outcomes

universe u v w

variable {F : Type u} {A B : Type v}

def Yields (x : Except F A) (P : A → Prop) : Prop := ∃ a, x = .ok a ∧ P a

theorem yields_ok {a : A} {P : A → Prop} (h : P a) :
    Yields (.ok a : Except F A) P := ⟨a, rfl, h⟩

theorem Yields.of_ok {x : Except F A} {P : A → Prop} (h : Yields x P) {a : A}
    (ha : x = .ok a) : P a := by
  obtain ⟨b, hb, hP⟩ := h
  have heq : b = a := Except.ok.inj (hb.symm.trans ha)
  exact heq ▸ hP

instance {x : Except F A} {P : A → Prop} [DecidablePred P] : Decidable (Yields x P) :=
  match x with
  | .ok a => decidable_of_iff (P a) ⟨yields_ok, fun h => h.of_ok rfl⟩
  | .error _ => isFalse fun ⟨_, h, _⟩ => nomatch h

instance decidableFaults {x : Except F A} {f : F} [DecidableEq F] : Decidable (x = .error f) :=
  match x with
  | .ok _ => isFalse fun h => nomatch h
  | .error g => decidable_of_iff (g = f) ⟨congrArg _, Except.error.inj⟩

theorem Yields.mono {x : Except F A} {P Q : A → Prop} (h : Yields x P)
    (weaker : ∀ a, P a → Q a) : Yields x Q := by
  obtain ⟨a, ha, hP⟩ := h
  exact ⟨a, ha, weaker a hP⟩

theorem Yields.bind {x : Except F A} {f : A → Except F B} {P : A → Prop}
    {Q : B → Prop} (hx : Yields x P) (hf : ∀ a, P a → Yields (f a) Q) :
    Yields (x >>= f) Q := by
  obtain ⟨a, rfl, hP⟩ := hx
  exact hf a hP

theorem bind_eq_ok {x : Except F A} {f : A → Except F B} {b : B} :
    x >>= f = .ok b ↔ ∃ a, x = .ok a ∧ f a = .ok b := by
  cases x with
  | ok a => simp [Bind.bind, Except.bind]
  | error e => simp [Bind.bind, Except.bind]

theorem map_eq_ok {x : Except F A} {f : A → B} {b : B} :
    x.map f = .ok b ↔ ∃ a, x = .ok a ∧ f a = b := by
  cases x with
  | ok a => simp [Except.map]
  | error e => simp [Except.map]

/-- A fault that neither part of a sequence has. -/
theorem bind_ne_error {x : Except F A} {f : A → Except F B} {e : F} (first : x ≠ .error e)
    (next : ∀ a, f a ≠ .error e) : x >>= f ≠ .error e := by
  cases x with
  | ok a => exact next a
  | error e' =>
    intro same
    exact first (congrArg Except.error (Except.error.inj same))

theorem map_ne_error {x : Except F A} {f : A → B} {e : F} (fine : x ≠ .error e) :
    x.map f ≠ .error e := by
  cases x with
  | ok a => simp [Except.map]
  | error e' =>
    intro same
    exact fine (congrArg Except.error (Except.error.inj same))

@[simp] theorem pure_eq_ok {a b : A} : (pure a : Except F A) = .ok b ↔ a = b :=
  ⟨Except.ok.inj, congrArg Except.ok⟩

/-- The fold rule: an invariant over the elements still to be consumed. -/
theorem yields_foldlM {C : Type w} {f : B → C → Except F B} {I : B → List C → Prop}
    (keep : ∀ b c cs, I b (c :: cs) → Yields (f b c) fun b' => I b' cs)
    {b : B} {cs : List C} (start : I b cs) :
    Yields (cs.foldlM f b) fun b' => I b' [] := by
  induction cs generalizing b with
  | nil => exact yields_ok start
  | cons c cs ih =>
    rw [List.foldlM_cons]
    exact (keep b c cs start).bind fun b' hb' => ih hb'

/-- The fold rule for partial correctness. -/
theorem foldlM_invariant {C : Type w} {f : B → C → Except F B} {I : B → Prop}
    (keep : ∀ b c b', I b → f b c = .ok b' → I b')
    {b b' : B} {cs : List C} (start : I b) (h : cs.foldlM f b = .ok b') : I b' := by
  induction cs generalizing b with
  | nil =>
    cases h
    exact start
  | cons c cs ih =>
    rw [List.foldlM_cons] at h
    obtain ⟨r, hr, hb'⟩ := bind_eq_ok.mp h
    exact ih (keep b c r start hr) hb'

section

variable {G : Type w} {C D : Type v} {fault : F → Option G} {R : A → B → Prop}

/-- Both computations return and the values are related, or both fault and the first fault
stands for the second. -/
inductive Agrees (fault : F → Option G) (R : A → B → Prop) : Except F A → Except G B → Prop
  | ok {a : A} {b : B} (related : R a b) : Agrees fault R (.ok a) (.ok b)
  | error {e : F} {g : G} (same : fault e = some g) : Agrees fault R (.error e) (.error g)

theorem Agrees.mono {S : A → B → Prop} {x : Except F A} {y : Except G B}
    (h : Agrees fault R x y) (weaker : ∀ a b, x = .ok a → R a b → S a b) :
    Agrees fault S x y := by
  cases h with
  | ok related => exact .ok (weaker _ _ rfl related)
  | error same => exact .error same

theorem Agrees.bind {S : C → D → Prop} {x : Except F A} {y : Except G B} {f : A → Except F C}
    {g : B → Except G D} (first : Agrees fault R x y)
    (next : ∀ a b, x = .ok a → R a b → Agrees fault S (f a) (g b)) :
    Agrees fault S (x >>= f) (y >>= g) := by
  cases first with
  | ok related => exact next _ _ rfl related
  | error same => exact .error same

end

end Outcomes
