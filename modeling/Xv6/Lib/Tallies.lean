import Mathlib.Algebra.BigOperators.Group.Finset.Basic
import Mathlib.Algebra.Order.BigOperators.Group.Finset
import Mathlib.Data.Fintype.Card
import Mathlib.Logic.Function.Basic

/-!
# Sums over the parties of a system

Each party counts for a number that its own state gives. When one party moves,
the sum changes by the difference.
-/

namespace Tallies
open Function

variable {P V : Type*} [Fintype P]

/-- A party is counted in the sum. -/
theorem le_sum (f : V → Nat) (g : P → V) (p : P) : f (g p) ≤ ∑ q, f (g q) :=
  Finset.single_le_sum (f := fun q => f (g q)) (fun _ _ => Nat.zero_le _) (Finset.mem_univ p)

theorem add_le_sum (f : V → Nat) (g : P → V) {p q : P} (other : p ≠ q) :
    f (g p) + f (g q) ≤ ∑ r, f (g r) := by
  classical
  have pair : ∑ r ∈ {p, q}, f (g r) = f (g p) + f (g q) := Finset.sum_pair other
  rw [← pair]
  exact Finset.sum_le_sum_of_subset (Finset.subset_univ _)

theorem sum_update [DecidableEq P] (f : V → Nat) (g : P → V) (p : P) (v : V) :
    ∑ q, f (update g p v q) + f (g p) = ∑ q, f (g q) + f v := by
  have new := Finset.sum_erase_add Finset.univ (fun q => f (update g p v q)) (Finset.mem_univ p)
  have old := Finset.sum_erase_add Finset.univ (fun q => f (g q)) (Finset.mem_univ p)
  have others : ∑ q ∈ Finset.univ.erase p, f (update g p v q)
      = ∑ q ∈ Finset.univ.erase p, f (g q) := by
    apply Finset.sum_congr rfl
    intro q hq
    rw [update_of_ne (Finset.ne_of_mem_erase hq)]
  simp only [update_self] at new
  omega

end Tallies
