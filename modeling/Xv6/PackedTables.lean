import Xv6.UserCopies

/-!
# Page tables in memory

`walk`, `mappages` and `uvmunmap` on pages of 512 packed entries, with the free
list that new page-table pages come from. Addresses are those of `uint64`.
-/

namespace PackedTables

open Function UserCopies

def PHYSTOP : Nat := 0x80000000 + 128 * 1024 * 1024

inductive Panic
  | kfree | walk | mappagesSize | mappagesRemap
  | uvmunmapNotAligned | uvmunmapWalk | uvmunmapNotMapped | uvmunmapNotALeaf
  /-- The rounds were too few. -/
  | fuel
  deriving DecidableEq

/-- The pages by their addresses, as 512 entries each. -/
abbrev Words := Nat → Fin 512 → Pte

structure Ram where
  words : Words
  freelist : List Nat
  kernelEnd : Nat

/-- `memset` of a page, given a word of it. -/
def Ram.memset (s : Ram) (page : Nat) (word : Pte) : Ram :=
  { s with words := update s.words page fun _ => word }

/-- `*pte = e` for an entry of a page. -/
def Ram.write (s : Ram) (page : Nat) (i : Fin 512) (e : Pte) : Ram :=
  { s with words := update s.words page (update (s.words page) i e) }

def kalloc (s : Ram) : Option Nat × Ram :=
  match s.freelist with
  | [] => (none, s)
  | r :: rest => (some r, { s with freelist := rest }.memset r 0x0505050505050505)

def kfree (pa : Nat) (s : Ram) : Except Panic Ram :=
  if pa % PGSIZE ≠ 0 ∨ pa < s.kernelEnd ∨ PHYSTOP ≤ pa then .error .kfree
  else .ok { s.memset pa 0x0101010101010101 with freelist := pa :: s.freelist }

def PTE_FLAGS (pte : Pte) : Pte := pte &&& 0x3FF

/-- `PX(level, va)`. -/
theorem PX_lt (level va : Nat) : PX level va < 512 := Nat.mod_lt _ (by decide)

def index (level va : Nat) : Fin 512 := ⟨PX level va, PX_lt level va⟩

/-- The loop of `walk` from `level` down; the entry it points at by its page and index. -/
def walkLoop (va : Nat) (alloc : Bool) : Nat → Nat → Ram → Option (Nat × Fin 512) × Ram
  | 0, pagetable, s => (some (pagetable, index 0 va), s)
  | level + 1, pagetable, s =>
    let i := index (level + 1) va
    if s.words pagetable i &&& PTE_V ≠ 0 then
      walkLoop va alloc level (PTE2PA (s.words pagetable i)) s
    else if ¬ alloc then (none, s)
    else match kalloc s with
      | (none, s) => (none, s)
      | (some page, s) =>
        walkLoop va alloc level page
          ((s.memset page 0).write pagetable i (PA2PTE page ||| PTE_V))

def walk (pagetable va : Nat) (alloc : Bool) (s : Ram) :
    Except Panic (Option (Nat × Fin 512) × Ram) :=
  if MAXVA ≤ va then .error .walk else .ok (walkLoop va alloc 2 pagetable s)

/-- The loop of `mappages`. -/
def mapLoop (pagetable last : Nat) (perm : Pte) : Nat → Nat → Nat → Ram → Except Panic (Int × Ram)
  | 0, _, _, _ => .error .fuel
  | rounds + 1, a, pa, s => do
    match ← walk pagetable a true s with
    | (none, s) => .ok (-1, s)
    | (some (page, i), s) =>
      if s.words page i &&& PTE_V ≠ 0 then .error .mappagesRemap
      else
        let s := s.write page i (PA2PTE pa ||| perm ||| PTE_V)
        if a = last then .ok (0, s)
        else mapLoop pagetable last perm rounds ((a + PGSIZE) % 2 ^ 64) ((pa + PGSIZE) % 2 ^ 64) s

/-- `walk` panics before the rounds are over. -/
def mappages (pagetable va size pa : Nat) (perm : Pte) (s : Ram) : Except Panic (Int × Ram) :=
  if size = 0 then .error .mappagesSize
  else
    let a := PGROUNDDOWN va
    let last := PGROUNDDOWN ((va + size - 1) % 2 ^ 64)
    mapLoop pagetable last perm (MAXVA / PGSIZE + 1) a pa s

/-- The loop of `uvmunmap`, up to address `stop`. -/
def unmapLoop (pagetable stop : Nat) (doFree : Bool) : Nat → Nat → Ram → Except Panic Ram
  | 0, _, _ => .error .fuel
  | rounds + 1, a, s =>
    if a < stop then do
      match ← walk pagetable a false s with
      | (none, _) => .error .uvmunmapWalk
      | (some (page, i), s) =>
        let pte := s.words page i
        if pte &&& PTE_V = 0 then .error .uvmunmapNotMapped
        else if PTE_FLAGS pte = PTE_V then .error .uvmunmapNotALeaf
        else
          let s ← if doFree then kfree (PTE2PA pte) s else .ok s
          unmapLoop pagetable stop doFree rounds ((a + PGSIZE) % 2 ^ 64) (s.write page i 0)
    else .ok s

def uvmunmap (pagetable va npages : Nat) (doFree : Bool) (s : Ram) : Except Panic Ram :=
  if va % PGSIZE ≠ 0 then .error .uvmunmapNotAligned
  else
    unmapLoop pagetable ((va + npages * PGSIZE) % 2 ^ 64) doFree (MAXVA / PGSIZE + 1) va s

end PackedTables
