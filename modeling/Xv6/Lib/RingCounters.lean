import Mathlib.Algebra.Order.Ring.Nat
import Mathlib.Data.List.Range
import Mathlib.Logic.Function.Basic

/-!
# Free-running counters over a ring

Counters of `w` bits run through a ring of `cap` cells and wrap around at `2 ^ w`,
which `cap` divides. The cells between two counters are read as a list from the
older counter on, so that storing at the newer one appends and advancing the older
one drops the head.
-/

namespace RingCounters

universe u

variable {w cap : Nat} {A : Type u}

/-- How far a counter is behind another. -/
def span (a b : BitVec w) : Nat := (b - a).toNat

/-- The cell of a counter. -/
def slot (cap : Nat) (c : BitVec w) : Nat := c.toNat % cap

/-- The contents of `len` cells from a counter on. -/
def window (cap : Nat) (data : Nat → A) (a : BitVec w) (len : Nat) : List A :=
  (List.range len).map fun k => data (slot cap (a + BitVec.ofNat w k))

section

variable {a b : BitVec w}

@[simp] theorem span_self (a : BitVec w) : span a a = 0 := by simp [span]

theorem span_lt (a b : BitVec w) : span a b < 2 ^ w := (b - a).isLt

theorem add_span (a b : BitVec w) : a + BitVec.ofNat w (span a b) = b := by
  rw [span, BitVec.ofNat_toNat, BitVec.setWidth_eq, BitVec.add_comm, BitVec.sub_add_cancel]

theorem span_add (a : BitVec w) {k : Nat} (small : k < 2 ^ w) :
    span a (a + BitVec.ofNat w k) = k := by
  rw [span, BitVec.add_comm, BitVec.add_sub_cancel, BitVec.toNat_ofNat, Nat.mod_eq_of_lt small]

theorem eq_add_iff {k : Nat} (small : k < 2 ^ w) : b = a + BitVec.ofNat w k ↔ span a b = k := by
  constructor
  · rintro rfl
    exact span_add a small
  · rintro rfl
    exact (add_span a b).symm

theorem span_eq_zero : span a b = 0 ↔ a = b := by
  rw [← eq_add_iff (Nat.two_pow_pos w)]
  simp [eq_comm]

/-- The newer counter advances. -/
theorem span_succ (room : span a b + 1 < 2 ^ w) : span a (b + 1) = span a b + 1 := by
  have advanced : b + 1 = a + BitVec.ofNat w (span a b + 1) := by
    rw [BitVec.ofNat_add, ← BitVec.add_assoc, add_span]
    rfl
  rw [advanced, span_add a room]

/-- The older counter advances. -/
theorem span_pred (apart : a ≠ b) : span (a + 1) b + 1 = span a b := by
  have positive : span a b ≠ 0 := fun zero => apart (span_eq_zero.mp zero)
  have low := span_lt a b
  obtain ⟨k, here⟩ : ∃ k, span a b = 1 + k := ⟨span a b - 1, by omega⟩
  have whole := add_span a b
  rw [here, BitVec.ofNat_add, ← BitVec.add_assoc] at whole
  have rest : span (a + 1) b = k := by
    rw [← whole]
    exact span_add (a + 1) (by omega)
  omega

/-- The newer counter goes back. -/
theorem span_back (apart : a ≠ b) : span a (b - 1) + 1 = span a b := by
  have positive : span a b ≠ 0 := fun zero => apart (span_eq_zero.mp zero)
  have low := span_lt a b
  obtain ⟨k, here⟩ : ∃ k, span a b = k + 1 := ⟨span a b - 1, by omega⟩
  have whole := add_span a b
  rw [here, BitVec.ofNat_add, ← BitVec.add_assoc] at whole
  have rest : b - 1 = a + BitVec.ofNat w k := by
    rw [← whole]
    exact BitVec.add_sub_cancel _ _
  rw [rest, span_add a (by omega), here]

end

section

variable {a : BitVec w} {d : Nat → A} {j k len : Nat}

theorem slot_add (divides : cap ∣ 2 ^ w) (a : BitVec w) (k : Nat) :
    slot cap (a + BitVec.ofNat w k) = (a.toNat + k) % cap := by
  rw [slot, BitVec.toNat_add, BitVec.toNat_ofNat, Nat.mod_mod_of_dvd _ divides, Nat.add_mod,
    Nat.mod_mod_of_dvd _ divides, ← Nat.add_mod]

/-- Less than a revolution apart, the cells are different ones. -/
theorem slot_ne (divides : cap ∣ 2 ^ w) (before : j < k) (near : k < j + cap) :
    slot cap (a + BitVec.ofNat w j) ≠ slot cap (a + BitVec.ofNat w k) := by
  rw [slot_add divides, slot_add divides]
  intro same
  have multiple : cap ∣ a.toNat + k - (a.toNat + j) :=
    Nat.dvd_of_mod_eq_zero (Nat.sub_mod_eq_zero_of_mod_eq same.symm)
  have zero := Nat.eq_zero_of_dvd_of_lt multiple (by omega)
  omega

@[simp] theorem window_zero : window cap d a 0 = [] := rfl

@[simp] theorem window_length : (window cap d a len).length = len := by simp [window]

theorem window_succ : window cap d a (len + 1) =
    window cap d a len ++ [d (slot cap (a + BitVec.ofNat w len))] := by
  simp [window, List.range_succ]

theorem window_cons :
    window cap d a (len + 1) = d (slot cap a) :: window cap d (a + 1) len := by
  simp only [window, List.range_succ_eq_map, List.map_cons, List.map_map]
  congr 1
  · simp
  · apply List.map_congr_left
    intro k _
    have same : a + BitVec.ofNat w (k + 1) = a + 1 + BitVec.ofNat w k := by
      rw [Nat.add_comm, BitVec.ofNat_add, ← BitVec.add_assoc]
      rfl
    simp only [Function.comp, Nat.succ_eq_add_one, same]

theorem window_add (m : Nat) :
    window cap d a (m + len) =
      window cap d a m ++ window cap d (a + BitVec.ofNat w m) len := by
  induction len with
  | zero => simp
  | succ len ih =>
    rw [← Nat.add_assoc, window_succ, window_succ, ih, List.append_assoc, BitVec.ofNat_add,
      BitVec.add_assoc]

/-- A store outside of the window. -/
theorem window_update (divides : cap ∣ 2 ^ w) (x : A) (outside : len ≤ k) (near : k < cap) :
    window cap (Function.update d (slot cap (a + BitVec.ofNat w k)) x) a len =
      window cap d a len := by
  apply List.map_congr_left
  intro j hj
  have before := List.mem_range.mp hj
  exact Function.update_of_ne (slot_ne divides (by omega) (by omega)) _ _

/-- A store at the newer counter appends. -/
theorem window_push (divides : cap ∣ 2 ^ w) (x : A) (room : len < cap) :
    window cap (Function.update d (slot cap (a + BitVec.ofNat w len)) x) a (len + 1) =
      window cap d a len ++ [x] := by
  rw [window_succ, window_update divides x le_rfl room, Function.update_self]

end

end RingCounters
