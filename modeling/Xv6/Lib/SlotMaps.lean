import Xv6.Lib.SlotTables

/-!
# Finite maps in lists with free slots

The slots in use are the pairs of a map. A search takes the first slot in use with the
key; a new pair goes to the first free slot or to the end, and a pair is taken out by
freeing its slot.
-/

namespace SlotMaps
open SlotTables

variable {A K : Type*} (live : A → Bool) (key : A → K)

/-- No two slots in use have the same key. -/
def Distinct (l : List A) : Prop :=
  l.Pairwise fun a b => live a = true → live b = true → key a ≠ key b

/-- The list with `a` in its first free slot. -/
def add (a : A) (l : List A) : List A := put (l.findIdx fun b => !live b) a l

section

variable {live key} {a b : A} {l : List A}

theorem Distinct.clear (distinct : Distinct live key l) (free : live a = false) (j : Nat) :
    Distinct live key (l.set j a) := by
  induction l generalizing j with
  | nil => simp [Distinct]
  | cons c l ih =>
    obtain ⟨first, rest⟩ := List.pairwise_cons.mp distinct
    cases j with
    | zero =>
      refine List.pairwise_cons.mpr ⟨fun d _ used => ?_, rest⟩
      rw [free] at used
      cases used
    | succ j =>
      refine List.pairwise_cons.mpr ⟨fun d member => ?_, ih rest j⟩
      rcases List.mem_or_eq_of_mem_set member with old | rfl
      · exact first d old
      · intro _ used
        rw [free] at used
        cases used

theorem add_nil : add live a [] = [a] := by simp [add]

theorem add_cons_live (used : live b = true) : add live a (b :: l) = b :: add live a l := by
  simp [add, List.findIdx_cons, used]

theorem add_cons_free (free : live b = false) : add live a (b :: l) = a :: l := by
  simp [add, List.findIdx_cons, free]

/-- A slot in use keeps its pair. -/
theorem add_getElem? {j : Nat} (there : l[j]? = some b) (used : live b = true) :
    (add live a l)[j]? = some b := by
  induction l generalizing j with
  | nil => simp at there
  | cons c l ih =>
    cases hc : live c with
    | true =>
      rw [add_cons_live hc]
      cases j with
      | zero => exact there
      | succ j =>
        rw [List.getElem?_cons_succ] at there ⊢
        exact ih there
    | false =>
      rw [add_cons_free hc]
      cases j with
      | zero =>
        obtain rfl : c = b := by simpa using there
        rw [hc] at used
        cases used
      | succ j => exact there

end

variable [DecidableEq K]

/-- The first slot in use with this key. -/
def find (l : List A) (k : K) : Option A := l.find? fun a => live a && decide (key a = k)

variable {live key} {a b : A} {l : List A} {j : Nat} {k : K}

theorem find_cons (b : A) (l : List A) (k : K) :
    find live key (b :: l) k =
      if live b = true ∧ key b = k then some b else find live key l k := by
  by_cases here : live b = true ∧ key b = k
  · simp [find, here.1, here.2]
  · rw [if_neg here]
    refine List.find?_cons_of_neg ?_
    simpa using here

theorem find_none : find live key l k = none ↔ ∀ b ∈ l, live b = true → key b ≠ k := by
  simp [find]

theorem find_add (used : live a = true) (new : find live key l (key a) = none) (k : K) :
    find live key (add live a l) k = if k = key a then some a else find live key l k := by
  induction l with
  | nil =>
    rw [add_nil, find_cons]
    simp only [used, true_and, eq_comm]
  | cons b l ih =>
    have rest : find live key l (key a) = none := by
      rw [find_none] at new ⊢
      exact fun c member => new c (List.mem_cons_of_mem b member)
    cases hb : live b with
    | true =>
      have differ : key b ≠ key a := find_none.mp new b List.mem_cons_self hb
      rw [add_cons_live hb, find_cons, find_cons, ih rest]
      by_cases here : live b = true ∧ key b = k
      · rw [if_pos here, if_pos here, if_neg fun same => differ (here.2.trans same)]
      · rw [if_neg here, if_neg here]
    | false =>
      rw [add_cons_free hb, find_cons, find_cons]
      simp [used, hb, eq_comm]

theorem Distinct.add (distinct : Distinct live key l) (new : find live key l (key a) = none) :
    Distinct live key (SlotMaps.add live a l) := by
  have differ := find_none.mp new
  induction l with
  | nil => simp [add_nil, Distinct]
  | cons b l ih =>
    obtain ⟨first, rest⟩ := List.pairwise_cons.mp distinct
    cases hb : live b with
    | true =>
      have others := fun c member => differ c (List.mem_cons_of_mem b member)
      rw [add_cons_live hb]
      refine List.pairwise_cons.mpr ⟨fun c member => ?_, ih rest (find_none.mpr others) others⟩
      rcases mem_put member with old | rfl
      · exact first c old
      · exact fun used _ => differ b List.mem_cons_self used
    | false =>
      rw [add_cons_free hb]
      refine List.pairwise_cons.mpr ⟨fun c member _ used => ?_, rest⟩
      exact (differ c (List.mem_cons_of_mem b member) used).symm

theorem find_clear (distinct : Distinct live key l) (there : l[j]? = some b)
    (used : live b = true) (free : live a = false) (k : K) :
    find live key (l.set j a) k = if k = key b then none else find live key l k := by
  induction l generalizing j with
  | nil => simp at there
  | cons c l ih =>
    obtain ⟨first, rest⟩ := List.pairwise_cons.mp distinct
    cases j with
    | zero =>
      obtain rfl : c = b := by simpa using there
      rw [List.set_cons_zero, find_cons, if_neg (by simp [free])]
      by_cases same : k = key c
      · rw [if_pos same, find_none]
        exact fun d member live_ equal => first d member used live_ (same ▸ equal.symm)
      · rw [if_neg same, find_cons, if_neg fun h => same h.2.symm]
    | succ j =>
      replace there : l[j]? = some b := by simpa using there
      rw [List.set_cons_succ, find_cons, find_cons, ih rest there]
      by_cases here : live c = true ∧ key c = k
      · have differ := first b (List.mem_of_getElem? there) here.1 used
        rw [if_pos here, if_pos here, if_neg fun same => differ (here.2.trans same)]
      · rw [if_neg here, if_neg here]

end SlotMaps
