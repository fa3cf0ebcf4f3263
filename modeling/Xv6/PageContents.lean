import Xv6.ProcessMemory

/-!
# Page tables and what is in the pages

The functions of `Pagetables` on the way of `sbrk`, with the bytes of every page:
`kalloc` and `kfree` fill a page with junk, a table page and a new user page begin
with zeros. The lists of pages and the tables are those of `Pagetables`.
-/

namespace PageContents
open Pagetables Function

/-- The bytes of a page. -/
abbrev Contents := Nat → BitVec 8

structure Ram where
  memory : Memory
  data : Page → Contents

/-- `memset` of a whole page. -/
def memset (r : Ram) (page : Page) (c : BitVec 8) : Ram :=
  { r with data := update r.data page fun _ => c }

def kalloc (r : Ram) : Option Page × Ram :=
  match Pagetables.kalloc r.memory with
  | (none, m) => (none, { r with memory := m })
  | (some page, m) => (some page, memset { r with memory := m } page 5)

def kfree (pa : Page) (r : Ram) : Except Panic Ram := do
  let m ← Pagetables.kfree pa r.memory
  .ok (memset { r with memory := m } pa 1)

variable {E : Type}

/-- One level of `walk`. -/
def descend (alloc : Bool) (pte : Option (Node E)) (r : Ram) : Option (Node E) × Ram :=
  match pte with
  | some child => (some child, r)
  | none =>
    if alloc then match kalloc r with
      | (none, r) => (none, r)
      | (some page, r) => (some (.empty page), memset r page 0)
    else (none, r)

def walk (t : Pagetable) (va : Nat) (alloc : Bool) (r : Ram) :
    Except Panic (Option (Option Pte) × Pagetable × Ram) :=
  if MAXVA ≤ va then .error .walk
  else match descend alloc (t.pte (PX 2 va)) r with
    | (none, r) => .ok (none, t, r)
    | (some mid, r) =>
      match descend alloc (mid.pte (PX 1 va)) r with
      | (none, r) => .ok (none, t.write (PX 2 va) (some mid), r)
      | (some low, r) =>
        .ok (some (low.pte (PX 0 va)),
          t.write (PX 2 va) (some (mid.write (PX 1 va) (some low))), r)

/-- The loop of `mappages`. -/
def mapLoop (perm : Perm) (last : Nat) :
    Nat → Nat → Page → Pagetable → Ram → Except Panic (Bool × Pagetable × Ram)
  | 0, _, _, t, r => .ok (true, t, r)
  | rounds + 1, a, pa, t, r => do
    match ← walk t a true r with
    | (none, t, r) => .ok (false, t, r)
    | (some (some _), _, _) => .error .mappagesRemap
    | (some none, t, r) =>
      let t := store t a (some ⟨pa, perm⟩)
      if a = last then .ok (true, t, r)
      else mapLoop perm last rounds (a + PGSIZE) (pa + PGSIZE) t r

/-- Whether it succeeds. -/
def mappages (t : Pagetable) (va size : Nat) (pa : Page) (perm : Perm) (r : Ram) :
    Except Panic (Bool × Pagetable × Ram) :=
  if size = 0 then .error .mappagesSize
  else
    let a := PGROUNDDOWN va
    let last := PGROUNDDOWN (va + size - 1)
    mapLoop perm last ((last - a) / PGSIZE + 1) a pa t r

/-- The loop of `uvmunmap`. -/
def unmapLoop (doFree : Bool) :
    Nat → Nat → Pagetable → Ram → Except Panic (Pagetable × Ram)
  | 0, _, t, r => .ok (t, r)
  | npages + 1, a, t, r => do
    match ← walk t a false r with
    | (none, _, _) => .error .uvmunmapWalk
    | (some none, _, _) => .error .uvmunmapNotMapped
    | (some (some pte), t, r) =>
      if pte.perm = ⟨false, false, false, false⟩ then .error .uvmunmapNotALeaf
      else do
        let r ← if doFree then kfree pte.pa r else .ok r
        unmapLoop doFree npages (a + PGSIZE) (store t a none) r

def uvmunmap (t : Pagetable) (va npages : Nat) (doFree : Bool) (r : Ram) :
    Except Panic (Pagetable × Ram) :=
  if va % PGSIZE ≠ 0 then .error .uvmunmapNotAligned
  else unmapLoop doFree npages va t r

def uvmdealloc (t : Pagetable) (oldsz newsz : Nat) (r : Ram) :
    Except Panic (Nat × Pagetable × Ram) :=
  if oldsz ≤ newsz then .ok (oldsz, t, r)
  else if PGROUNDUP newsz < PGROUNDUP oldsz then do
    let npages := (PGROUNDUP oldsz - PGROUNDUP newsz) / PGSIZE
    let (t, r) ← uvmunmap t (PGROUNDUP newsz) npages true r
    .ok (newsz, t, r)
  else .ok (newsz, t, r)

/-- The loop of `uvmalloc`, from address `a` on. -/
def allocLoop (oldsz newsz : Nat) (xperm : Perm) :
    Nat → Nat → Pagetable → Ram → Except Panic (Nat × Pagetable × Ram)
  | 0, _, t, r => .ok (newsz, t, r)
  | rounds + 1, a, t, r =>
    if a < newsz then
      match kalloc r with
      | (none, r) => do
        let (_, t, r) ← uvmdealloc t a oldsz r
        .ok (0, t, r)
      | (some mem, r) => do
        let r := memset r mem 0
        match ← mappages t a PGSIZE mem { xperm with r := true, u := true } r with
        | (false, t, r) =>
          let r ← kfree mem r
          let (_, t, r) ← uvmdealloc t a oldsz r
          .ok (0, t, r)
        | (true, t, r) => allocLoop oldsz newsz xperm rounds ((a + PGSIZE) % 2 ^ 64) t r
    else .ok (newsz, t, r)

def uvmalloc (t : Pagetable) (oldsz newsz : Nat) (xperm : Perm) (r : Ram) :
    Except Panic (Nat × Pagetable × Ram) :=
  if newsz < oldsz then .ok (oldsz, t, r)
  else
    let oldsz := PGROUNDUP oldsz
    allocLoop oldsz newsz xperm ((newsz - oldsz) / PGSIZE + 1) oldsz t r

/-- The fields of a process that `growproc` deals with. -/
structure Proc where
  sz : Nat
  pagetable : Pagetable

def growproc (x : Proc) (n : BitVec 32) (r : Ram) : Except Panic (Int × Proc × Ram) :=
  if 0 < n.toInt then do
    let (sz, t, r) ← uvmalloc x.pagetable x.sz (ProcessMemory.grown x.sz n)
      ⟨false, true, false, false⟩ r
    if sz = 0 then .ok (-1, { x with pagetable := t }, r)
    else .ok (0, ⟨sz, t⟩, r)
  else if n.toInt < 0 then do
    let (sz, t, r) ← uvmdealloc x.pagetable x.sz (ProcessMemory.grown x.sz n) r
    .ok (0, ⟨sz, t⟩, r)
  else .ok (0, x, r)

def sys_sbrk (x : Proc) (n : BitVec 32) (r : Ram) : Except Panic (Int × Proc × Ram) := do
  let addr := x.sz
  let (result, x, r) ← growproc x n r
  if result < 0 then .ok (-1, x, r) else .ok (addr, x, r)

end PageContents
