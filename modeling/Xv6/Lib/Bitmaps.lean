import Mathlib.Data.List.Basic
import Mathlib.Logic.Function.Basic

/-!
# Sets of numbers as bits in bytes

Bit `b` of a memory of bytes is bit `b % 8` of byte `b / 8`. Marking and
unmarking a bit change no other bit.
-/

namespace Bitmaps

abbrev Bits := Nat → BitVec 8

/-- The mask `1 << (b % 8)`. -/
def mask (b : Nat) : BitVec 8 := 1#8 <<< (b % 8)

def Marked (m : Bits) (b : Nat) : Prop := m (b / 8) &&& mask b ≠ 0#8

instance decidableMarked (m : Bits) (b : Nat) : Decidable (Marked m b) := by
  unfold Marked
  infer_instance

def mark (m : Bits) (b : Nat) : Bits := Function.update m (b / 8) (m (b / 8) ||| mask b)

def unmark (m : Bits) (b : Nat) : Bits := Function.update m (b / 8) (m (b / 8) &&& ~~~mask b)

variable {m : Bits} {b c : Nat}

theorem mask_bit (b k : Nat) : (mask b).getLsbD k = decide (k = b % 8) := by
  have small : b % 8 < 8 := Nat.mod_lt b (by decide)
  simp only [mask, BitVec.getLsbD_shiftLeft, BitVec.getLsbD_one]
  by_cases same : k = b % 8
  · subst same
    simp [small]
  · simp only [same, decide_false]
    by_cases low : k < b % 8
    · simp [low]
    · have apart : k - b % 8 ≠ 0 := by omega
      simp [apart]

theorem marked_iff : Marked m b ↔ (m (b / 8)).getLsbD (b % 8) = true := by
  have small : b % 8 < 8 := Nat.mod_lt b (by decide)
  constructor
  · intro some_bit
    by_contra clear
    apply some_bit
    apply BitVec.eq_of_getLsbD_eq
    intro k _
    rw [BitVec.getLsbD_and, mask_bit]
    by_cases same : k = b % 8
    · subst same
      simpa using clear
    · simp [same]
  · intro set_ zero
    have bit := congrArg (fun x => BitVec.getLsbD x (b % 8)) zero
    simp [mask_bit, set_] at bit

theorem marked_mark : Marked (mark m b) c ↔ c = b ∨ Marked m c := by
  rw [marked_iff, marked_iff, mark]
  by_cases byte : c / 8 = b / 8
  · rw [byte, Function.update_self, BitVec.getLsbD_or, mask_bit]
    have split_ : c % 8 = b % 8 ↔ c = b := by omega
    simp [split_, or_comm]
  · rw [Function.update_of_ne byte]
    have apart : c ≠ b := fun same => byte (congrArg (· / 8) same)
    simp [apart]

theorem marked_unmark : Marked (unmark m b) c ↔ c ≠ b ∧ Marked m c := by
  rw [marked_iff, marked_iff, unmark]
  have small : c % 8 < 8 := Nat.mod_lt c (by decide)
  by_cases byte : c / 8 = b / 8
  · rw [byte, Function.update_self, BitVec.getLsbD_and, BitVec.getLsbD_not, mask_bit]
    have split_ : c % 8 = b % 8 ↔ c = b := by omega
    simp [split_, small, and_comm]
  · rw [Function.update_of_ne byte]
    have apart : c ≠ b := fun same => byte (congrArg (· / 8) same)
    simp [apart]

/-- The first number below `n` that is not marked. -/
def firstClear (m : Bits) (n : Nat) : Option Nat :=
  (List.range n).find? fun b => decide (¬ Marked m b)

theorem firstClear_some (h : firstClear m c = some b) : b < c ∧ ¬ Marked m b := by
  have clear := List.find?_some h
  have inside := List.mem_range.mp (List.mem_of_find?_eq_some h)
  exact ⟨inside, by simpa using clear⟩

end Bitmaps
