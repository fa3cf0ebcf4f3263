import Mathlib.Data.List.Basic

/-!
# Lists with free slots

A table that is searched from its start for a free slot and grows at its end
when there is none.
-/

namespace SlotTables

variable {α : Type*}

/-- Write slot `k`, or one more slot at the end. -/
def put (k : Nat) (a : α) (l : List α) : List α := if k < l.length then l.set k a else l ++ [a]

@[simp] theorem put_nil (k : Nat) (a : α) : put k a [] = [a] := by simp [put]

@[simp] theorem put_cons_succ (k : Nat) (a b : α) (l : List α) :
    put (k + 1) a (b :: l) = b :: put k a l := by
  simp only [put, List.length_cons, Nat.add_lt_add_iff_right, List.set_cons_succ]
  split <;> rfl

@[simp] theorem put_cons_zero (a b : α) (l : List α) : put 0 a (b :: l) = a :: l := by simp [put]

theorem mem_put {k : Nat} {a b : α} {l : List α} (h : b ∈ put k a l) : b ∈ l ∨ b = a := by
  unfold put at h
  split at h
  · exact List.mem_or_eq_of_mem_set h
  · simpa using h

/-- Using the first free slot adds the entry to every count that leaves free slots out. -/
theorem countP_put (free p : α → Bool) (skips : ∀ b, free b = true → p b = false) (a : α)
    (l : List α) :
    (put (l.findIdx free) a l).countP p = l.countP p + if p a then 1 else 0 := by
  induction l with
  | nil => simp [List.countP_cons]
  | cons b l ih =>
    cases hb : free b with
    | true => simp [List.findIdx_cons, hb, List.countP_cons, skips b hb]
    | false =>
      simp only [List.findIdx_cons, hb, cond_false, put_cons_succ, List.countP_cons, ih]
      omega

/-- Clearing a slot takes its entry out of the count. -/
theorem countP_clear {p : α → Bool} {k : Nat} {a b : α} {l : List α} (there : l[k]? = some b)
    (out : p a = false) : (l.set k a).countP p + (if p b then 1 else 0) = l.countP p := by
  induction l generalizing k with
  | nil => simp at there
  | cons c l ih =>
    cases k with
    | zero =>
      obtain rfl : c = b := by simpa using there
      simp [List.countP_cons, out]
    | succ k =>
      have rest := ih (k := k) (by simpa using there)
      simp only [List.set_cons_succ, List.countP_cons]
      omega

end SlotTables
