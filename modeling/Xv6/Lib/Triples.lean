import Mathlib.Logic.Basic

/-!
# Triples for stateful computations that may stop

`Triple E P m Q` says that from a state with `P` the computation ends with a result and
a state that satisfy `Q`, or stops with an error that satisfies `E`. The rules follow the
structure of the computation, so that a function has one specification and its callers
use that.
-/

namespace Triples

universe u

variable {S F A B : Type u}

abbrev Code (F S A : Type u) := StateT S (Except F) A

def Triple (E : F → Prop) (P : S → Prop) (m : Code F S A) (Q : A → S → Prop) : Prop :=
  ∀ s, P s → match m s with
    | .ok (a, t) => Q a t
    | .error e => E e

variable {E : F → Prop} {P P' : S → Prop} {m : Code F S A} {Q Q' : A → S → Prop}

theorem triple_pure {a : A} (h : ∀ s, P s → Q a s) : Triple E P (pure a) Q := h

theorem triple_throw {e : F} (h : E e) : Triple E P (throw e : Code F S A) Q := fun _ _ => h

theorem triple_bind {R : A → S → Prop} {f : A → Code F S B} {Q : B → S → Prop}
    (first : Triple E P m R) (next : ∀ a, Triple E (R a) (f a) Q) : Triple E P (m >>= f) Q := by
  intro s hs
  have here := first s hs
  simp only [bind, StateT.bind, Except.bind]
  cases heq : m s with
  | error e =>
    rw [heq] at here
    exact here
  | ok r =>
    rw [heq] at here
    exact next r.1 r.2 here

theorem Triple.mono (h : Triple E P m Q) (pre : ∀ s, P' s → P s) (post : ∀ a s, Q a s → Q' a s) :
    Triple E P' m Q' := by
  intro s hs
  have here := h s (pre s hs)
  split at here
  · exact post _ _ here
  · exact here

/-- Computations one of which is chosen by a test. -/
theorem triple_ite {c : Prop} [Decidable c] {m' : Code F S A} (yes : c → Triple E P m Q)
    (no : ¬ c → Triple E P m' Q) : Triple E P (if c then m else m') Q := by
  split
  · exact yes ‹_›
  · exact no ‹_›

/-- A fact about the state that does not change may be used all along. -/
theorem triple_of {φ : Prop} (h : φ → Triple E P m Q) : Triple E (fun s => φ ∧ P s) m Q :=
  fun s hs => h hs.1 s hs.2

theorem triple_get {Q : S → S → Prop} (h : ∀ s, P s → Q s s) :
    Triple E P (get : Code F S S) Q := h

theorem triple_modify {f : S → S} {Q : PUnit → S → Prop} (h : ∀ s, P s → Q ⟨⟩ (f s)) :
    Triple E P (modify f : Code F S PUnit) Q := h

end Triples
