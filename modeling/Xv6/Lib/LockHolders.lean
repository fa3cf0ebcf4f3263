import Mathlib.Logic.Function.Basic

/-!
# Work under a lock

Parties share a lock, and each shows by its state whether it works under the lock.
Whoever does holds the lock, so there is one at a time.
-/

namespace LockHolders
open Function

variable {P H V : Type*} {works : V → Bool} {own : P → H} {pc pc' : P → V} {lock lock' : Option H}

/-- Who works under the lock holds it; `own` is the party as the lock knows it. -/
def Exclusive (works : V → Bool) (own : P → H) (pc : P → V) (lock : Option H) : Prop :=
  ∀ p, works (pc p) = true → lock = some (own p)

theorem Exclusive.alone (h : Exclusive works own pc lock) (apart : Injective own) {p q : P}
    (hp : works (pc p) = true) (hq : works (pc q) = true) : q = p :=
  apart (Option.some.inj ((h q hq).symm.trans (h p hp)))

/-- While the lock is free nobody works under it. -/
theorem Exclusive.idle (h : Exclusive works own pc lock) (free : lock = none) (p : P) :
    works (pc p) = false := by
  by_contra busy
  have held := h p (by simpa using busy)
  rw [free] at held
  cases held

/-- No party begins to work under the lock. -/
theorem Exclusive.keep (h : Exclusive works own pc lock)
    (fewer : ∀ p, works (pc' p) = true → works (pc p) = true) : Exclusive works own pc' lock :=
  fun p hp => h p (fewer p hp)

section Step
variable [DecidableEq P] {p : P} {x : V}

theorem Exclusive.stay (h : Exclusive works own pc lock)
    (same : works x = true → works (pc p) = true) :
    Exclusive works own (update pc p x) lock := by
  refine h.keep fun q hq => ?_
  rcases eq_or_ne q p with rfl | other
  · rw [update_self] at hq
    exact same hq
  · rwa [update_of_ne other] at hq

theorem Exclusive.take (h : Exclusive works own pc lock) (free : lock = none) :
    Exclusive works own (update pc p x) (some (own p)) := by
  intro q hq
  rcases eq_or_ne q p with rfl | other
  · rfl
  · rw [update_of_ne other, h.idle free q] at hq
    cases hq

theorem Exclusive.give (h : Exclusive works own pc lock) (apart : Injective own)
    (had : works (pc p) = true) (lets : works x = false) :
    Exclusive works own (update pc p x) lock' := by
  intro q hq
  rcases eq_or_ne q p with rfl | other
  · rw [update_self, lets] at hq
    cases hq
  · rw [update_of_ne other] at hq
    exact absurd (h.alone apart had hq) other

end Step

end LockHolders
