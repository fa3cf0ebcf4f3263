import Mathlib.Data.List.Basic

/-!
# Tallies over a history

A history is a list of marks, the latest first. A tally counts the marks of
one kind since the latest mark that starts the count again, so it states what
a counter of a program should hold in terms of what the program did.
-/

namespace Histories

universe u

variable {M : Type u} {cut p : M → Bool} {m : M} {log : List M}

/-- The marks after the latest one that `cut` accepts. -/
def since (cut : M → Bool) (log : List M) : List M := log.takeWhile fun m => !cut m

def tally (cut p : M → Bool) (log : List M) : Nat := (since cut log).countP p

@[simp] theorem tally_nil : tally cut p [] = 0 := rfl

theorem tally_cons : tally cut p (m :: log) =
    if cut m then 0 else tally cut p log + if p m then 1 else 0 := by
  cases h : cut m <;> simp [tally, since, h, List.countP_cons]

end Histories
