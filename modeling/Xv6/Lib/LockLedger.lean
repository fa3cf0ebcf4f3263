import Mathlib.Data.List.Perm.Basic
import Mathlib.Logic.Function.Basic

/-!
# Locks and their holders

A ledger ties three views of the same locks together: the holder that each lock
names, the locks that each holder has, and the number of locks that each holder
counts. Acquiring a free lock and releasing a held one keep the ledger.
-/

namespace LockLedger

variable {L C : Type*}

structure Ledger (lock : L → Option C) (count : C → Nat) (held : C → List L) : Prop where
  owner : ∀ l c, lock l = some c ↔ l ∈ held c
  once : ∀ c, (held c).Nodup
  counts : ∀ c, count c = (held c).length

variable {lock : L → Option C} {count : C → Nat} {held : C → List L}

/-- A lock has one holder. -/
theorem Ledger.exclusive (ledger : Ledger lock count held) {l : L} {c d : C} (hc : l ∈ held c)
    (hd : l ∈ held d) : c = d := by
  have one := (ledger.owner l c).mpr hc
  have two := (ledger.owner l d).mpr hd
  exact Option.some.inj (one.symm.trans two)

theorem empty : Ledger (fun _ : L => (none : Option C)) (fun _ => 0) fun _ => [] where
  owner l c := by simp
  once c := List.nodup_nil
  counts c := rfl

/-- The order in which a holder's locks are listed does not matter. -/
theorem Ledger.reorder [DecidableEq C] (ledger : Ledger lock count held) {c : C} {after : List L}
    (same : after.Perm (held c)) : Ledger lock count (Function.update held c after) := by
  constructor
  · intro l d
    by_cases own : d = c
    · subst own
      simp [ledger.owner, same.mem_iff]
    · simp [own, ledger.owner]
  · intro d
    by_cases own : d = c
    · subst own
      simpa using same.nodup_iff.mpr (ledger.once d)
    · simpa [own] using ledger.once d
  · intro d
    by_cases own : d = c
    · subst own
      simpa [same.length_eq] using ledger.counts d
    · simpa [own] using ledger.counts d

variable [DecidableEq L] [DecidableEq C]

theorem Ledger.acquire (ledger : Ledger lock count held) {l : L} {c : C} {after : List L}
    (free : lock l = none) (gained : after.Perm (l :: held c)) :
    Ledger (Function.update lock l (some c)) (Function.update count c (count c + 1))
      (Function.update held c after) := by
  have nobody (d : C) : l ∉ held d := by simp [← ledger.owner, free]
  constructor
  · intro k d
    by_cases this : k = l <;> by_cases own : d = c
    · simp [this, own, gained.mem_iff]
    · simp [this, own, nobody, Ne.symm own]
    · simp [this, own, gained.mem_iff, ledger.owner]
    · simp [this, own, ledger.owner]
  · intro d
    by_cases own : d = c
    · subst own
      simpa [gained.nodup_iff] using ⟨nobody d, ledger.once d⟩
    · simpa [own] using ledger.once d
  · intro d
    by_cases own : d = c
    · subst own
      simp [gained.length_eq, ledger.counts]
    · simpa [own] using ledger.counts d

theorem Ledger.release (ledger : Ledger lock count held) {l : L} {c : C} {after : List L}
    (given : (held c).Perm (l :: after)) :
    Ledger (Function.update lock l none) (Function.update count c (count c - 1))
      (Function.update held c after) := by
  obtain ⟨gone, rest⟩ := List.nodup_cons.mp (given.nodup_iff.mp (ledger.once c))
  have mine : l ∈ held c := given.mem_iff.mpr List.mem_cons_self
  constructor
  · intro k d
    by_cases this : k = l <;> by_cases own : d = c
    · simp [this, own, gone]
    · have other : l ∉ held d := fun theirs => own (ledger.exclusive theirs mine)
      simp [this, own, other]
    · simp [this, own, ledger.owner, given.mem_iff]
    · simp [this, own, ledger.owner]
  · intro d
    by_cases own : d = c
    · subst own
      simpa using rest
    · simpa [own] using ledger.once d
  · intro d
    by_cases own : d = c
    · subst own
      simp [ledger.counts, given.length_eq]
    · simpa [own] using ledger.counts d

end LockLedger
