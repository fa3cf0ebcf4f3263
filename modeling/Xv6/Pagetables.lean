import Mathlib.Algebra.BigOperators.Fin
import Mathlib.Data.List.FinRange
import Mathlib.Logic.Function.Basic

/-!
# Page tables

The page allocator and `vm.c` as far as the memory of a process goes: `walk`
with the table pages it makes, `mappages`, `uvmunmap`, `uvmalloc`,
`uvmdealloc`, `uvmcopy`, `freewalk`. A page-table page is a node with 512
entries, of which the lowest level has the mappings. What is in the user's pages
plays no part.
-/

namespace Pagetables
open Function

/-- The physical address of a page. -/
abbrev Page := Nat

def PGSIZE : Nat := 4096
def PHYSTOP : Nat := 0x80000000 + 128 * 1024 * 1024
def MAXVA : Nat := 2 ^ 38
def TRAMPOLINE : Nat := MAXVA - PGSIZE
def TRAPFRAME : Nat := TRAMPOLINE - PGSIZE

/-- The panics of the functions below. -/
inductive Panic
  | kfree | walk | mappagesSize | mappagesRemap
  | uvmunmapNotAligned | uvmunmapWalk | uvmunmapNotMapped | uvmunmapNotALeaf
  | uvmcopyPteShouldExist | uvmcopyPageNotPresent | freewalkLeaf | uvmclear | initExiting
  deriving DecidableEq

/-- The free list, the end of the kernel, and the calls of `kalloc` that fail whatever is free,
by their number. -/
structure Memory where
  freelist : List Page
  kernelEnd : Nat
  fails : Nat → Bool
  calls : Nat

def kalloc (m : Memory) : Option Page × Memory :=
  let m' := { m with calls := m.calls + 1 }
  if m.fails m.calls then (none, m')
  else match m.freelist with
    | [] => (none, m')
    | r :: rest => (some r, { m' with freelist := rest })

def kfree (pa : Page) (m : Memory) : Except Panic Memory :=
  if pa % PGSIZE ≠ 0 ∨ pa < m.kernelEnd ∨ PHYSTOP ≤ pa then .error .kfree
  else .ok { m with freelist := pa :: m.freelist }

structure Perm where
  r : Bool
  w : Bool
  x : Bool
  u : Bool
  deriving DecidableEq

/-- A valid entry of the lowest level. -/
structure Pte where
  pa : Page
  perm : Perm
  deriving DecidableEq

/-- A page-table page, with what its valid entries lead to. -/
structure Node (E : Type) where
  page : Page
  pte : Fin 512 → Option E

abbrev Pagetable := Node (Node (Node Pte))

variable {E : Type}

def Node.write (n : Node E) (i : Fin 512) (e : Option E) : Node E :=
  { n with pte := update n.pte i e }

/-- A page after `memset` with zeros. -/
def Node.empty (page : Page) : Node E := ⟨page, fun _ => none⟩

def PX (level va : Nat) : Fin 512 := ⟨va / 2 ^ (12 + 9 * level) % 512, Nat.mod_lt _ (by decide)⟩

/-- One level of `walk`. -/
def descend (alloc : Bool) (pte : Option (Node E)) (m : Memory) : Option (Node E) × Memory :=
  match pte with
  | some child => (some child, m)
  | none =>
    if alloc then match kalloc m with
      | (none, m) => (none, m)
      | (some page, m) => (some (.empty page), m)
    else (none, m)

/-- The entry that the result points at, and the table and the memory after the call. -/
def walk (t : Pagetable) (va : Nat) (alloc : Bool) (m : Memory) :
    Except Panic (Option (Option Pte) × Pagetable × Memory) :=
  if MAXVA ≤ va then .error .walk
  else match descend alloc (t.pte (PX 2 va)) m with
    | (none, m) => .ok (none, t, m)
    | (some mid, m) =>
      match descend alloc (mid.pte (PX 1 va)) m with
      | (none, m) => .ok (none, t.write (PX 2 va) (some mid), m)
      | (some low, m) =>
        .ok (some (low.pte (PX 0 va)),
          t.write (PX 2 va) (some (mid.write (PX 1 va) (some low))), m)

/-- `*pte = e` for the entry that `walk` leads to. -/
def store (t : Pagetable) (va : Nat) (e : Option Pte) : Pagetable :=
  match t.pte (PX 2 va) with
  | none => t
  | some mid =>
    match mid.pte (PX 1 va) with
    | none => t
    | some low =>
      t.write (PX 2 va) (some (mid.write (PX 1 va) (some (low.write (PX 0 va) e))))

def PGROUNDUP (sz : Nat) : Nat := (sz + (PGSIZE - 1)) % 2 ^ 64 / PGSIZE * PGSIZE

def PGROUNDDOWN (a : Nat) : Nat := a / PGSIZE * PGSIZE

/-- The loop of `mappages`. -/
def mapLoop (perm : Perm) (last : Nat) :
    Nat → Nat → Page → Pagetable → Memory → Except Panic (Bool × Pagetable × Memory)
  | 0, _, _, t, m => .ok (true, t, m)
  | rounds + 1, a, pa, t, m => do
    match ← walk t a true m with
    | (none, t, m) => .ok (false, t, m)
    | (some (some _), _, _) => .error .mappagesRemap
    | (some none, t, m) =>
      let t := store t a (some ⟨pa, perm⟩)
      if a = last then .ok (true, t, m)
      else mapLoop perm last rounds (a + PGSIZE) (pa + PGSIZE) t m

/-- Whether it succeeds. -/
def mappages (t : Pagetable) (va size : Nat) (pa : Page) (perm : Perm) (m : Memory) :
    Except Panic (Bool × Pagetable × Memory) :=
  if size = 0 then .error .mappagesSize
  else
    let a := PGROUNDDOWN va
    let last := PGROUNDDOWN (va + size - 1)
    mapLoop perm last ((last - a) / PGSIZE + 1) a pa t m

/-- The loop of `uvmunmap`. -/
def unmapLoop (doFree : Bool) :
    Nat → Nat → Pagetable → Memory → Except Panic (Pagetable × Memory)
  | 0, _, t, m => .ok (t, m)
  | npages + 1, a, t, m => do
    match ← walk t a false m with
    | (none, _, _) => .error .uvmunmapWalk
    | (some none, _, _) => .error .uvmunmapNotMapped
    | (some (some pte), t, m) =>
      if pte.perm = ⟨false, false, false, false⟩ then .error .uvmunmapNotALeaf
      else do
        let m ← if doFree then kfree pte.pa m else .ok m
        unmapLoop doFree npages (a + PGSIZE) (store t a none) m

def uvmunmap (t : Pagetable) (va npages : Nat) (doFree : Bool) (m : Memory) :
    Except Panic (Pagetable × Memory) :=
  if va % PGSIZE ≠ 0 then .error .uvmunmapNotAligned
  else unmapLoop doFree npages va t m

def uvmcreate (m : Memory) : Option Pagetable × Memory :=
  match kalloc m with
  | (none, m) => (none, m)
  | (some page, m) => (some (.empty page), m)

def uvmdealloc (t : Pagetable) (oldsz newsz : Nat) (m : Memory) :
    Except Panic (Nat × Pagetable × Memory) :=
  if oldsz ≤ newsz then .ok (oldsz, t, m)
  else if PGROUNDUP newsz < PGROUNDUP oldsz then do
    let npages := (PGROUNDUP oldsz - PGROUNDUP newsz) / PGSIZE
    let (t, m) ← uvmunmap t (PGROUNDUP newsz) npages true m
    .ok (newsz, t, m)
  else .ok (newsz, t, m)

/-- The loop of `uvmalloc`, from address `a` on. -/
def allocLoop (oldsz newsz : Nat) (xperm : Perm) :
    Nat → Nat → Pagetable → Memory → Except Panic (Nat × Pagetable × Memory)
  | 0, _, t, m => .ok (newsz, t, m)
  | rounds + 1, a, t, m =>
    if a < newsz then
      match kalloc m with
      | (none, m) => do
        let (_, t, m) ← uvmdealloc t a oldsz m
        .ok (0, t, m)
      | (some mem, m) => do
        match ← mappages t a PGSIZE mem { xperm with r := true, u := true } m with
        | (false, t, m) =>
          let m ← kfree mem m
          let (_, t, m) ← uvmdealloc t a oldsz m
          .ok (0, t, m)
        | (true, t, m) => allocLoop oldsz newsz xperm rounds ((a + PGSIZE) % 2 ^ 64) t m
    else .ok (newsz, t, m)

def uvmalloc (t : Pagetable) (oldsz newsz : Nat) (xperm : Perm) (m : Memory) :
    Except Panic (Nat × Pagetable × Memory) :=
  if newsz < oldsz then .ok (oldsz, t, m)
  else
    let oldsz := PGROUNDUP oldsz
    allocLoop oldsz newsz xperm ((newsz - oldsz) / PGSIZE + 1) oldsz t m

/-- Free what the entries of a page lead to, then the page. -/
def freewalk (child : E → Memory → Except Panic Memory) (n : Node E) (m : Memory) :
    Except Panic Memory := do
  let m ← (List.finRange 512).foldlM (fun m i => match n.pte i with
    | some e => child e m
    | none => .ok m) m
  kfree n.page m

/-- A mapping that is left. One without permissions would be taken for a table page. -/
def freeLeaf (_ : Pte) (_ : Memory) : Except Panic Memory := .error .freewalkLeaf

def uvmfree (t : Pagetable) (sz : Nat) (m : Memory) : Except Panic Memory := do
  let (t, m) ← (if 0 < sz then uvmunmap t 0 (PGROUNDUP sz / PGSIZE) true m else .ok (t, m))
  freewalk (freewalk (freewalk freeLeaf)) t m

/-- The loop of `uvmcopy`, from address `i` on. -/
def copyLoop (old : Pagetable) (sz : Nat) :
    Nat → Nat → Pagetable → Memory → Except Panic (Bool × Pagetable × Memory)
  | 0, _, new, m => .ok (true, new, m)
  | rounds + 1, i, new, m =>
    if i < sz then do
      match ← walk old i false m with
      | (none, _, _) => .error .uvmcopyPteShouldExist
      | (some none, _, _) => .error .uvmcopyPageNotPresent
      | (some (some pte), _, m) =>
        match kalloc m with
        | (none, m) => do
          let (new, m) ← uvmunmap new 0 (i / PGSIZE) true m
          .ok (false, new, m)
        | (some mem, m) => do
          match ← mappages new i PGSIZE mem pte.perm m with
          | (false, new, m) =>
            let m ← kfree mem m
            let (new, m) ← uvmunmap new 0 (i / PGSIZE) true m
            .ok (false, new, m)
          | (true, new, m) => copyLoop old sz rounds (i + PGSIZE) new m
    else .ok (true, new, m)

def uvmcopy (old new : Pagetable) (sz : Nat) (m : Memory) :
    Except Panic (Bool × Pagetable × Memory) :=
  copyLoop old sz (sz / PGSIZE + 1) 0 new m

/-- `PTE_U` is cleared. -/
def uvmclear (t : Pagetable) (va : Nat) (m : Memory) : Except Panic (Pagetable × Memory) := do
  match ← walk t va false m with
  | (none, _, _) => .error .uvmclear
  | (some pte, t, m) =>
    .ok (store t va (pte.map fun pte => { pte with perm := { pte.perm with u := false } }), m)

end Pagetables
