import Mathlib.Logic.Function.Basic

/-!
# Resources with one owner each

Every place names a resource or none (`null`). The named resources are exactly
those in use, and no resource is named by two places. A free resource may be
granted to an empty place, and the resource of a place released.
-/

namespace Ownership

variable {X B : Type*}

structure Partition (null : B) (own : X → B) (used : B → Prop) : Prop where
  alone : ∀ x y, own x = own y → own x ≠ null → x = y
  used_iff : ∀ b, b ≠ null → (used b ↔ ∃ x, own x = b)

variable {null : B} {own own' : X → B} {used used' : B → Prop} {x y : X} {b : B}

theorem Partition.in_use (h : Partition null own used) (named : own x ≠ null) : used (own x) :=
  (h.used_iff _ named).mpr ⟨x, rfl⟩

theorem Partition.free (h : Partition null own used) (some_ : b ≠ null) (free : ¬ used b) (x : X) :
    own x ≠ b := fun named => free ((h.used_iff b some_).mpr ⟨x, named⟩)

theorem Partition.congr (h : Partition null own used) (same : ∀ x, own' x = own x)
    (same_used : ∀ b, b ≠ null → (used' b ↔ used b)) : Partition null own' used' := by
  have eq : own' = own := funext same
  subst eq
  exact ⟨h.alone, fun b some_ => (same_used b some_).trans (h.used_iff b some_)⟩

variable [DecidableEq X]

/-- An unused resource for a place that names none. -/
theorem Partition.grant (h : Partition null own used) (empty : own x = null) (some_ : b ≠ null)
    (free : ¬ used b) (own_eq : ∀ y, own' y = Function.update own x b y)
    (used_iff : ∀ c, c ≠ null → (used' c ↔ c = b ∨ used c)) : Partition null own' used' := by
  have unnamed := h.free some_ free
  have eq : own' = Function.update own x b := funext own_eq
  subst eq
  constructor
  · intro y z same named
    by_cases atY : y = x <;> by_cases atZ : z = x
    · rw [atY, atZ]
    · subst atY
      rw [Function.update_self, Function.update_of_ne atZ] at same
      exact absurd same.symm (unnamed z)
    · subst atZ
      rw [Function.update_self, Function.update_of_ne atY] at same
      exact absurd same (unnamed y)
    · rw [Function.update_of_ne atY] at same named
      rw [Function.update_of_ne atZ] at same
      exact h.alone y z same named
  · intro c named
    rw [used_iff c named, h.used_iff c named]
    constructor
    · rintro (rfl | ⟨y, rfl⟩)
      · exact ⟨x, Function.update_self ..⟩
      · have other : y ≠ x := fun same => named (same ▸ empty)
        exact ⟨y, Function.update_of_ne other ..⟩
    · rintro ⟨y, eq⟩
      by_cases same : y = x
      · subst same
        rw [Function.update_self] at eq
        exact Or.inl eq.symm
      · rw [Function.update_of_ne same] at eq
        exact Or.inr ⟨y, eq⟩

/-- A place gives its resource back. -/
theorem Partition.release (h : Partition null own used) (named : own x ≠ null)
    (own_eq : ∀ y, own' y = Function.update own x null y)
    (used_iff : ∀ c, c ≠ null → (used' c ↔ c ≠ own x ∧ used c)) : Partition null own' used' := by
  have eq : own' = Function.update own x null := funext own_eq
  subst eq
  have away : ∀ y, Function.update own x null y ≠ null → y ≠ x := by
    rintro y some_ rfl
    exact some_ (Function.update_self ..)
  constructor
  · intro y z same some_
    have atY := away y some_
    have atZ := away z (same ▸ some_)
    rw [Function.update_of_ne atY] at same some_
    rw [Function.update_of_ne atZ] at same
    exact h.alone y z same some_
  · intro c some_
    rw [used_iff c some_, h.used_iff c some_]
    constructor
    · rintro ⟨other, y, rfl⟩
      have apart : y ≠ x := fun same => other (same ▸ rfl)
      exact ⟨y, Function.update_of_ne apart ..⟩
    · rintro ⟨y, eq⟩
      have apart := away y (eq ▸ some_)
      rw [Function.update_of_ne apart] at eq
      refine ⟨fun same => apart ?_, y, eq⟩
      exact h.alone y x (eq.trans same) (eq ▸ some_)

end Ownership
