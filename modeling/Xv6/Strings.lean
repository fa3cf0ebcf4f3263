import Xv6.Lib.ByteMemory

/-!
# Strings of bounded length

`strncpy` and `strncmp` of `kernel/string.c`. A string is what a pointer points to, and
each of the two sees of it the bytes before the first zero, `n` at most.
-/

namespace Strings
open ByteMemory

/-- `while(n-- > 0) *s++ = 0;` -/
def zeroFill (m : Memory) (s : Nat) : Nat → Memory
  | 0 => m
  | n + 1 => zeroFill (store m s [0]) (s + 1) n

/-- The first loop of `strncpy` stops after a zero byte; the second one fills the rest. -/
def strncpy (m : Memory) (s : Nat) (t : Nat → Byte) : Nat → Memory
  | 0 => m
  | n + 1 =>
    let m := store m s [t 0]
    if t 0 ≠ 0 then strncpy m (s + 1) (fun k => t (k + 1)) n else zeroFill m (s + 1) n

def strncmp (p q : Nat → Byte) : Nat → Int
  | 0 => 0
  | n + 1 =>
    if p 0 ≠ 0 ∧ p 0 = q 0 then strncmp (fun k => p (k + 1)) (fun k => q (k + 1)) n
    else ((p 0).toNat : Int) - (q 0).toNat

/-- A string literal in memory: its bytes, and zeros behind them. -/
def literal (bytes : List Byte) (k : Nat) : Byte := bytes.getD k 0

/-- The string at `p`, cut to `n` bytes. -/
def cut (p : Nat → Byte) : Nat → List Byte
  | 0 => []
  | n + 1 => if p 0 = 0 then [] else p 0 :: cut (fun k => p (k + 1)) n

/-- The `n` bytes that `strncpy` makes of it. -/
def padded (p : Nat → Byte) (n : Nat) : List Byte :=
  cut p n ++ List.replicate (n - (cut p n).length) 0

variable {p q : Nat → Byte} {n : Nat}

theorem cut_ends (zero : p 0 = 0) (n : Nat) : cut p (n + 1) = [] := if_pos zero

theorem cut_cons (some_ : p 0 ≠ 0) (n : Nat) :
    cut p (n + 1) = p 0 :: cut (fun k => p (k + 1)) n := if_neg some_

theorem cut_congr (same : ∀ k < n, p k = q k) : cut p n = cut q n := by
  induction n generalizing p q with
  | zero => rfl
  | succ n ih =>
    have rest := ih fun k low => same (k + 1) (Nat.succ_lt_succ low)
    rw [cut, cut, same 0 (Nat.succ_pos n), rest]

theorem padded_ends (zero : p 0 = 0) (n : Nat) :
    padded p (n + 1) = 0 :: List.replicate n 0 := by
  rw [padded, cut_ends zero]
  rfl

theorem padded_cons (some_ : p 0 ≠ 0) (n : Nat) :
    padded p (n + 1) = p 0 :: padded (fun k => p (k + 1)) n := by
  rw [padded, cut_cons some_, List.length_cons, Nat.add_sub_add_right]
  rfl

theorem padded_length (p : Nat → Byte) (n : Nat) : (padded p n).length = n := by
  induction n generalizing p with
  | zero => rfl
  | succ n ih =>
    by_cases zero : p 0 = 0
    · simp [padded_ends zero]
    · rw [padded_cons zero, List.length_cons, ih]

theorem cut_padded (p : Nat → Byte) (n : Nat) (x : Byte) :
    cut (fun k => (padded p n).getD k x) n = cut p n := by
  induction n generalizing p with
  | zero => rfl
  | succ n ih =>
    by_cases zero : p 0 = 0
    · rw [padded_ends zero, cut_ends zero]
      exact cut_ends rfl n
    · have rest := ih fun k => p (k + 1)
      rw [padded_cons zero, cut_cons zero, cut]
      exact (if_neg zero).trans (congrArg (p 0 :: ·) rest)

/-- `strncmp` compares the strings cut to `n` bytes. -/
theorem strncmp_eq_zero (p q : Nat → Byte) (n : Nat) :
    strncmp p q n = 0 ↔ cut p n = cut q n := by
  induction n generalizing p q with
  | zero => exact iff_of_true rfl rfl
  | succ n ih =>
    unfold strncmp
    split
    next go =>
      obtain ⟨some_, same⟩ := go
      rw [ih, cut_cons some_, cut_cons (same ▸ some_), same, List.cons_inj_right]
    next stop =>
      have bytes : ((p 0).toNat : Int) - (q 0).toNat = 0 ↔ p 0 = q 0 := by
        rw [← BitVec.toNat_inj]
        omega
      rw [bytes]
      by_cases ends : p 0 = 0
      · rw [cut_ends ends]
        by_cases ends' : q 0 = 0
        · exact iff_of_true (ends.trans ends'.symm) (cut_ends ends' n).symm
        · rw [cut_cons ends']
          exact iff_of_false (fun same => ends' (same ▸ ends)) (List.cons_ne_nil _ _).symm
      · have differ : p 0 ≠ q 0 := fun same => stop ⟨ends, same⟩
        rw [cut_cons ends]
        by_cases ends' : q 0 = 0
        · rw [cut_ends ends']
          exact iff_of_false differ (List.cons_ne_nil _ _)
        · rw [cut_cons ends']
          exact iff_of_false differ fun same => differ (List.cons.inj same).1

theorem zeroFill_eq (m : Memory) (s n : Nat) :
    zeroFill m s n = store m s (List.replicate n 0) := by
  induction n generalizing m s with
  | zero => exact (store_nil m s).symm
  | succ n ih =>
    rw [zeroFill, ih, List.replicate_succ]
    exact store_append m s [0] _

/-- `strncpy` writes all `n` bytes, and they depend on the source only. -/
theorem strncpy_eq (m : Memory) (s : Nat) (t : Nat → Byte) (n : Nat) :
    strncpy m s t n = store m s (padded t n) := by
  induction n generalizing m s t with
  | zero => exact (store_nil m s).symm
  | succ n ih =>
    by_cases zero : t 0 = 0
    · rw [padded_ends zero]
      simp only [strncpy, zero, ne_eq, not_true_eq_false, if_false, zeroFill_eq]
      exact store_append m s [0] _
    · rw [padded_cons zero]
      simp only [strncpy, ne_eq, zero, not_false_eq_true, if_true, ih]
      exact store_append m s [t 0] _

end Strings
