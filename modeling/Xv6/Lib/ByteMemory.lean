import Mathlib.Data.List.GetD
import Mathlib.Tactic.IntervalCases

/-!
# Words and strings in a memory of bytes

A memory gives a byte at every address. A word of 32 bits is stored least
significant byte first, a string with a terminating zero after its bytes. What
lies outside the bytes of a store is unchanged, and a loaded value depends on
its own bytes only.
-/

namespace ByteMemory

abbrev Byte := BitVec 8
abbrev Memory := Nat → Byte

def store (m : Memory) (a : Nat) (bs : List Byte) : Memory :=
  fun k => if a ≤ k then bs.getD (k - a) (m k) else m k

def load (m : Memory) (a n : Nat) : List Byte := (List.range n).map fun k => m (a + k)

def word (x : BitVec 32) : List Byte :=
  [x.extractLsb' 0 8, x.extractLsb' 8 8, x.extractLsb' 16 8, x.extractLsb' 24 8]

def storeWord (m : Memory) (a : Nat) (x : BitVec 32) : Memory := store m a (word x)

def loadWord (m : Memory) (a : Nat) : BitVec 32 := m (a + 3) ++ m (a + 2) ++ m (a + 1) ++ m a

/-- The bytes of a string without its terminator. -/
structure CString where
  bytes : List Byte
  nonzero : 0 ∉ bytes

def CString.length (s : CString) : Nat := s.bytes.length

def strcpy (m : Memory) (a : Nat) (s : CString) : Memory := store m a (s.bytes ++ [0])

/-- The string in an array of `n` bytes, if it ends inside the array. -/
def stringAt (m : Memory) (a n : Nat) : Option (List Byte) :=
  if 0 ∈ load m a n then some ((load m a n).takeWhile (· ≠ 0)) else none

/-- Two memories agree on the `n` bytes from `a` on. -/
def Agree (m m' : Memory) (a n : Nat) : Prop := ∀ k, a ≤ k → k < a + n → m k = m' k

variable {m m' : Memory} {a b k n : Nat} {bs : List Byte}

@[simp] theorem load_length (m : Memory) (a n : Nat) : (load m a n).length = n := by
  simp [load]

theorem store_outside (apart : k < a ∨ a + bs.length ≤ k) : store m a bs k = m k := by
  unfold store
  split
  · have past : bs.length ≤ k - a := by omega
    exact List.getD_eq_default bs (m k) past
  · rfl

theorem store_inside (h : k < bs.length) : store m a bs (a + k) = bs[k] := by
  have here : bs.getD k (m (a + k)) = bs[k] := List.getD_eq_getElem bs _ h
  simpa [store] using here

theorem store_nil (m : Memory) (a : Nat) : store m a [] = m := by
  funext k
  simp [store]

/-- Two stores one after the other. -/
theorem store_append (m : Memory) (a : Nat) (bs cs : List Byte) :
    store (store m a bs) (a + bs.length) cs = store m a (bs ++ cs) := by
  funext k
  simp only [store]
  by_cases before : k < a
  · rw [if_neg (by omega), if_neg (by omega), if_neg (by omega)]
  · obtain ⟨j, rfl⟩ := Nat.exists_eq_add_of_le (Nat.le_of_not_lt before)
    by_cases inside : j < bs.length
    · rw [if_neg (by omega), if_pos (by omega), if_pos (by omega), Nat.add_sub_cancel_left,
        List.getD_append _ _ _ _ inside]
    · rw [if_pos (by omega), if_pos (by omega), if_pos (by omega), Nat.add_sub_cancel_left,
        List.getD_append_right _ _ _ _ (by omega), Nat.add_sub_add_left,
        List.getD_eq_default bs _ (by omega)]

theorem store_agree (m : Memory) (apart : a + n ≤ b ∨ b + bs.length ≤ a) :
    Agree (store m b bs) m a n := by
  intro k low high
  apply store_outside
  omega

theorem Agree.mono {a' n' : Nat} (h : Agree m m' a n) (low : a ≤ a') (high : a' + n' ≤ a + n) :
    Agree m m' a' n' :=
  fun k hk hk' => h k (by omega) (by omega)

theorem Agree.load (h : Agree m m' a n) : load m a n = load m' a n := by
  apply List.map_congr_left
  intro k hk
  have := List.mem_range.mp hk
  exact h (a + k) (by omega) (by omega)

theorem Agree.loadWord (h : Agree m m' a 4) : loadWord m a = loadWord m' a := by
  unfold ByteMemory.loadWord
  rw [h a (by omega) (by omega), h (a + 1) (by omega) (by omega), h (a + 2) (by omega) (by omega),
    h (a + 3) (by omega) (by omega)]

theorem Agree.stringAt (h : Agree m m' a n) : stringAt m a n = stringAt m' a n := by
  unfold ByteMemory.stringAt
  rw [h.load]

/-- What was loaded and stored again agrees with the source. -/
theorem store_load_agree (m m' : Memory) (a n : Nat) : Agree (store m a (load m' a n)) m' a n := by
  intro k low high
  obtain ⟨j, rfl⟩ := Nat.exists_eq_add_of_le low
  rw [store_inside (by simpa using high)]
  simp [ByteMemory.load]

theorem loadWord_storeWord (m : Memory) (a : Nat) (x : BitVec 32) :
    loadWord (storeWord m a x) a = x := by
  have inside (k : Nat) (h : k < 4) : storeWord m a x (a + k) = x.extractLsb' (8 * k) 8 := by
    have stored : storeWord m a x (a + k) = (word x).get ⟨k, h⟩ := store_inside h
    rw [stored]
    interval_cases k <;> rfl
  have bytes : loadWord (storeWord m a x) a = x.extractLsb' 24 8 ++ x.extractLsb' 16 8 ++
      x.extractLsb' 8 8 ++ x.extractLsb' 0 8 := by
    have first : storeWord m a x a = x.extractLsb' 0 8 := inside 0 (by omega)
    rw [loadWord, inside 1 (by omega), inside 2 (by omega), inside 3 (by omega), first]
  rw [bytes]
  ext k hk
  simp only [BitVec.getElem_append, BitVec.getElem_extractLsb']
  split
  · simp [← BitVec.getLsbD_eq_getElem]
  · split
    · have : 8 + (k - 8) = k := by omega
      simp [← BitVec.getLsbD_eq_getElem, this]
    · split
      · have : 16 + (k - 8 - 8) = k := by omega
        simp [← BitVec.getLsbD_eq_getElem, this]
      · have : 24 + (k - 8 - 8 - 8) = k := by omega
        simp [← BitVec.getLsbD_eq_getElem, this]

theorem loadWord_storeWord_apart (m : Memory) (x : BitVec 32) (apart : b + 4 ≤ a ∨ a + 4 ≤ b) :
    loadWord (storeWord m a x) b = loadWord m b := by
  have agree : Agree (storeWord m a x) m b 4 := store_agree m apart
  exact agree.loadWord

/-- A load that starts at a store, of at most the bytes stored. -/
theorem load_store_take (m : Memory) (a : Nat) (short : n ≤ bs.length) :
    load (store m a bs) a n = bs.take n := by
  apply List.ext_getElem
  · simp [short]
  · intro k hk _
    rw [load_length] at hk
    simp [load, store_inside (m := m) (a := a) (show k < bs.length by omega)]

/-- A load that starts at a store and goes past it. -/
theorem load_store_append (m : Memory) (a : Nat) (long : bs.length ≤ n) :
    load (store m a bs) a n = bs ++ load m (a + bs.length) (n - bs.length) := by
  apply List.ext_getElem
  · simp [long]
  · intro k hk _
    rw [load_length] at hk
    by_cases inside : k < bs.length
    · simp [load, store_inside (m := m) (a := a) inside, inside]
    · have past : a + bs.length ≤ a + k := by omega
      have same : a + bs.length + (k - bs.length) = a + k := by omega
      simp [load, store_outside (m := m) (Or.inr past), List.getElem_append_right (by omega :
        bs.length ≤ k), same]

/-- A string that fits in the array with its terminator is read back. -/
theorem stringAt_strcpy (m : Memory) (a : Nat) {s : CString} (fits : s.length < n) :
    stringAt (strcpy m a s) a n = some s.bytes := by
  have length : (s.bytes ++ [0]).length ≤ n := by
    simp only [CString.length] at fits
    simp
    omega
  have whole := load_store_append m a length
  have text : ∀ x ∈ s.bytes, decide (x ≠ 0) = true := by
    intro x hx
    have : x ≠ 0 := fun zero => s.nonzero (zero ▸ hx)
    simpa using this
  unfold stringAt strcpy
  rw [whole, List.append_assoc, List.takeWhile_append_of_pos text]
  simp

/-- A string without room for its terminator does not end inside the array. -/
theorem stringAt_strcpy_long (m : Memory) (a : Nat) {s : CString} (long : n ≤ s.length) :
    stringAt (strcpy m a s) a n = none := by
  have short : n ≤ (s.bytes ++ [0]).length := by
    simp only [CString.length] at long
    simp
    omega
  have cut : load (strcpy m a s) a n = s.bytes.take n := by
    rw [strcpy, load_store_take m a short, List.take_append_of_le_length long]
  unfold stringAt
  rw [cut, if_neg]
  intro zero
  exact s.nonzero (List.mem_of_mem_take zero)

end ByteMemory
