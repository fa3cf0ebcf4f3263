import Mathlib.Data.List.Basic
import Mathlib.Order.Lattice

/-!
# Arrays that are written in place and grow at the end

An array is a list. A write at an offset within it or at its end replaces the
elements from there on and makes the array longer if need be; a read yields the
elements of a range as far as there are any.
-/

namespace ByteArrays

universe u

variable {A : Type u}

/-- The array with `new` written from `off` on. -/
def splice (old : List A) (off : Nat) (new : List A) : List A :=
  old.take off ++ new ++ old.drop (off + new.length)

/-- The elements from `off` on, `n` at most. -/
def slice (array : List A) (off n : Nat) : List A := (array.drop off).take n

variable {f g h : Nat → A} {off n w : Nat}

theorem getElem?_splice {old new : List A} (within : off ≤ old.length) (k : Nat) :
    (splice old off new)[k]? =
      if off ≤ k ∧ k < off + new.length then new[k - off]? else old[k]? := by
  have front : (old.take off).length = off := by simpa using within
  rw [splice, List.append_assoc, List.getElem?_append, List.getElem?_append, front,
    List.getElem?_drop, List.getElem?_take]
  by_cases before : k < off
  · rw [if_pos before, if_pos before, if_neg (by omega)]
  · by_cases inside : k - off < new.length
    · rw [if_neg before, if_pos inside, if_pos (by omega)]
    · rw [if_neg before, if_neg inside, if_neg (by omega)]
      congr 1
      omega

theorem getElem?_table (n : Nat) (f : Nat → A) (k : Nat) :
    ((List.range n).map f)[k]? = if k < n then some (f k) else none := by
  rw [List.getElem?_map]
  split
  next below => rw [List.getElem?_range below, Option.map_some]
  next past => rw [List.getElem?_eq_none (by simpa using past), Option.map_none]

/-- A write into a tabulated array. -/
theorem splice_range (within : off ≤ n)
    (values : ∀ k < max n (off + w), h k = if off ≤ k ∧ k < off + w then g (k - off) else f k) :
    (List.range (max n (off + w))).map h =
      splice ((List.range n).map f) off ((List.range w).map g) := by
  refine List.ext_getElem? fun k => ?_
  rw [getElem?_splice (by simpa using within)]
  simp only [getElem?_table, List.length_map, List.length_range]
  by_cases below : k < max n (off + w)
  · rw [if_pos below, values k below]
    by_cases inside : off ≤ k ∧ k < off + w
    · rw [if_pos inside, if_pos inside, if_pos (by omega)]
    · rw [if_neg inside, if_neg inside, if_pos (by omega)]
  · rw [if_neg below, if_neg (by omega), if_neg (by omega)]

/-- A read from a tabulated array. -/
theorem slice_range : slice ((List.range n).map f) off w =
    (List.range (min w (n - off))).map fun j => f (off + j) := by
  refine List.ext_getElem? fun k => ?_
  rw [slice, List.getElem?_take, List.getElem?_drop, getElem?_table, getElem?_table]
  by_cases below : k < min w (n - off)
  · rw [if_pos below, if_pos (by omega), if_pos (by omega)]
  · by_cases short : k < w
    · rw [if_neg below, if_pos short, if_neg (by omega)]
    · rw [if_neg below, if_neg short]

end ByteArrays
