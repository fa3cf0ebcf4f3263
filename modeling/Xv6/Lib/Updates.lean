import Mathlib.Logic.Function.Basic

/-!
# Tables that change in one place

A step writes one cell of a table. What the new value has as the old one did is
the same in every cell, and what holds of a cell after the step holds of the new
value or of the cell before.
-/

namespace Updates
open Function

variable {I V A : Type*} [DecidableEq I] {f : I → V} {i k : I} {v : V}

/-- What the new value has as the old one did is the same everywhere. -/
theorem update_reads (field : V → A) (same : field v = field (f i)) (k : I) :
    field (update f i v k) = field (f k) := by
  rcases eq_or_ne k i with rfl | other
  · rw [update_self, same]
  · rw [update_of_ne other]

theorem update_cases (P : V → Prop) (here : P (update f i v k)) :
    (k = i ∧ P v) ∨ (k ≠ i ∧ P (f k)) := by
  rcases eq_or_ne k i with rfl | other
  · rw [update_self] at here
    exact .inl ⟨rfl, here⟩
  · rw [update_of_ne other] at here
    exact .inr ⟨other, here⟩

end Updates
