import Mathlib.Data.List.Basic

/-!
# The log on the disk

The constants of the file system log, and the header block: a word `n` and
then the numbers of the `n` logged blocks. Reading a header that was written
gives back what was written, whatever else the block holds.
-/

namespace LogFormat

/-- Max number of blocks any operation writes. -/
def MAXOPBLOCKS : Nat := 10

/-- Max data blocks in the on-disk log: `MAXOPBLOCKS * 3`. -/
def LOGSIZE : Nat := 30

abbrev BlockNo := BitVec 32

/-- The `BSIZE = 1024` bytes of a block, as words. -/
abbrev Block := Fin 256 → BitVec 32

def word (b : Block) (i : Nat) : BitVec 32 := if h : i < 256 then b ⟨i, h⟩ else 0

/-- `struct logheader` read from a block: the first `n` entries of `block`, the
loop being over `int` values. -/
def loadHeader (hb : Block) : List BlockNo :=
  (List.range (hb 0).toInt.toNat).map fun i => word hb (i + 1)

/-- The header written over what the block held. -/
def storeHeader (lh : List BlockNo) (hb : Block) : Block := fun w =>
  if w = 0 then BitVec.ofNat 32 lh.length else lh.getD (w.val - 1) (hb w)

/-- Where block `tail` of the transaction is kept: `log.start + tail + 1`. -/
def logBlock (start : BlockNo) (tail : Nat) : BlockNo := start + BitVec.ofNat 32 (tail + 1)

/-- The header and the blocks that follow it, `size` of them in all. -/
def InLog (start : BlockNo) (size : Nat) (b : BlockNo) : Prop :=
  ∃ i < size, b = start + BitVec.ofNat 32 i

theorem loadHeader_zero {hb : Block} (h : hb 0 = 0) : loadHeader hb = [] := by
  simp [loadHeader, h]

theorem loadHeader_storeHeader {lh : List BlockNo} (short : lh.length ≤ LOGSIZE) (hb : Block) :
    loadHeader (storeHeader lh hb) = lh := by
  unfold LOGSIZE at short
  have count : (storeHeader lh hb 0).toInt.toNat = lh.length := by
    have small : (BitVec.ofNat 32 lh.length).toNat = lh.length := by
      rw [BitVec.toNat_ofNat]
      omega
    simp only [storeHeader, if_pos]
    rw [BitVec.toInt_eq_toNat_of_lt (by omega), small, Int.toNat_natCast]
  apply List.ext_getElem
  · simp [loadHeader, count]
  · intro i hi hlen
    have inside : i + 1 < 256 := by omega
    simp [loadHeader, word, inside, storeHeader, hlen]

theorem logBlock_ne_start (start : BlockNo) {i : Nat} (hi : i < LOGSIZE) :
    logBlock start i ≠ start := by
  unfold LOGSIZE at hi
  unfold logBlock
  intro same
  have := congrArg (fun x => (x - start).toNat) same
  simp at this
  omega

theorem logBlock_inj (start : BlockNo) {i j : Nat} (hi : i < LOGSIZE) (hj : j < LOGSIZE)
    (same : logBlock start i = logBlock start j) : i = j := by
  unfold LOGSIZE at hi hj
  unfold logBlock at same
  have := congrArg (fun x => (x - start).toNat) same
  simp at this
  omega

theorem inLog_start (start : BlockNo) {size : Nat} (h : 0 < size) : InLog start size start :=
  ⟨0, h, by simp⟩

theorem inLog_logBlock (start : BlockNo) {size i : Nat} (h : i + 1 < size) :
    InLog start size (logBlock start i) := ⟨i + 1, h, rfl⟩

end LogFormat
