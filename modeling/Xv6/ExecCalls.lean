import Xv6.CallOutlines
import Xv6.PagetableViews
import Xv6.ProcessMemory

/-!
# exec

The whole of `exec`: the transaction and the inode, the ELF and program headers as
they are read, the new table, the arguments on the stack, and what is left of the
process. Each `readi` gives some bytes, whatever the file has and however it
fails. The bytes in the user's pages are left out.
-/

namespace ExecCalls

open CallOutlines Pagetables PagetableViews ProcessMemory Triples

abbrev Byte := BitVec 8

def MAXARG : Nat := 32
def ELF_MAGIC : Nat := 0x464C457F
def ELF_PROG_LOAD : Nat := 1

/-- What `exec` sets in `struct trapframe`. -/
structure Trapframe where
  epc : Nat
  sp : Nat
  a1 : Nat

/-- The process, with the page that its trapframe is in. -/
structure Process where
  pagetable : Pagetable
  sz : Nat
  trapframe : Page
  regs : Trapframe
  name : List Byte

/-- What the process sees of the file system, the allocator, and the bytes that the next calls
of `readi` give. -/
structure World (n : Nat) where
  fs : CallOutlines.State n
  memory : Memory
  reads : List (List Byte)
  proc : Process

inductive Fault
  | fs (stop : Stop)
  | memory (panic : Panic)
  /-- "loadseg: address should exist" -/
  | loadseg
  /-- The loop of `loadseg` starts again at 0. -/
  | endless
  /-- A write behind `ustack`. -/
  | ustack

abbrev Exec (n : Nat) := Code Fault (World n)

variable {n : Nat} {A : Type}

/-- A function of the file system. -/
def onFs (m : CallOutlines.Call n A) : Exec n A := fun w =>
  match m w.fs with
  | .ok (a, fs) => .ok (a, { w with fs := fs })
  | .error stop => .error (.fs stop)

/-- A function of `vm.c` or `proc.c`. -/
def onMemory (f : Memory → Except Panic (A × Memory)) : Exec n A := fun w =>
  match f w.memory with
  | .ok (a, m) => .ok (a, { w with memory := m })
  | .error panic => .error (.memory panic)

def readi : Exec n (List Byte) := fun w =>
  match w.reads with
  | [] => .ok ([], w)
  | bytes :: rest => .ok (bytes, { w with reads := rest })

/-- An integer of `size` bytes, the lowest first. -/
def field (bytes : List Byte) (offset size : Nat) : Nat :=
  ((bytes.drop offset).take size).foldr (fun b rest => b.toNat + 256 * rest) 0

structure Elfhdr where
  magic : Nat
  entry : Nat
  phnum : Nat

/-- `struct elfhdr`, of 64 bytes; `phoff` says where `readi` is to read. -/
def elfhdr (bytes : List Byte) : Elfhdr := ⟨field bytes 0 4, field bytes 24 8, field bytes 56 2⟩

structure Proghdr where
  type : Nat
  flags : Nat
  vaddr : Nat
  filesz : Nat
  memsz : Nat

/-- `struct proghdr`, of 56 bytes. -/
def proghdr (bytes : List Byte) : Proghdr :=
  ⟨field bytes 0 4, field bytes 4 4, field bytes 16 8, field bytes 32 8, field bytes 40 8⟩

/-- 0 if the address is not mapped for the user. -/
def walkaddr (t : Pagetable) (va : Nat) : Page :=
  if MAXVA ≤ va then 0
  else match slot t va with
    | some (some pte) => if pte.perm.u then pte.pa else 0
    | _ => 0

/-- Whether `copyout` goes through: the loop over `len` bytes, at most as many rounds. -/
def copyout (t : Pagetable) : Nat → Nat → Nat → Bool
  | 0, _, _ => true
  | rounds + 1, dstva, len =>
    if len = 0 then true
    else
      let va0 := PGROUNDDOWN dstva
      if walkaddr t va0 = 0 then false
      else copyout t rounds (va0 + PGSIZE) (len - min (PGSIZE - (dstva - va0)) len)

/-- The loop of `loadseg`, from `i` on; `i` is a `uint`. -/
def loadseg (t : Pagetable) (va sz : Nat) : Nat → Nat → Exec n Bool
  | 0, _ => throw .endless
  | rounds + 1, i =>
    if i < sz then do
      if walkaddr t ((va + i) % 2 ^ 64) = 0 then throw .loadseg
      else
        let bytes ← readi
        if bytes.length ≠ min (sz - i) PGSIZE then return false
        else loadseg t va sz rounds ((i + PGSIZE) % 2 ^ 32)
    else return true

/-- The loop over the program headers; the table and the size it comes to, and whether it goes
through. -/
def loadLoop : Nat → Pagetable → Nat → Exec n (Bool × Pagetable × Nat)
  | 0, t, sz => return (true, t, sz)
  | phnum + 1, t, sz => do
    let bytes ← readi
    let ph := proghdr bytes
    if bytes.length ≠ 56 then return (false, t, sz)
    else if ph.type ≠ ELF_PROG_LOAD then loadLoop phnum t sz
    else if ph.memsz < ph.filesz then return (false, t, sz)
    else if (ph.vaddr + ph.memsz) % 2 ^ 64 < ph.vaddr then return (false, t, sz)
    else if ph.vaddr % PGSIZE ≠ 0 then return (false, t, sz)
    else
      let (sz1, t) ← onMemory fun m => do
        let (sz1, t, m) ← uvmalloc t sz ((ph.vaddr + ph.memsz) % 2 ^ 64)
          (flags2perm (BitVec.ofNat 32 ph.flags)) m
        .ok ((sz1, t), m)
      if sz1 = 0 then return (false, t, sz)
      else
        let filesz := ph.filesz % 2 ^ 32
        if ← loadseg t ph.vaddr filesz (filesz / PGSIZE + 2) 0 then loadLoop phnum t sz1
        else return (false, t, sz1)

/-- `sp -= k; sp -= sp % 16` on a `uint64`. -/
def lower (sp k : Nat) : Nat :=
  let sp := (sp + 2 ^ 64 - k) % 2 ^ 64
  sp - sp % 16

/-- The loop over the arguments: `argc` and `sp` after it, or it fails. -/
def pushLoop (t : Pagetable) (stackbase : Nat) : List (List Byte) → Nat → Nat → Option (Nat × Nat)
  | [], argc, sp => some (argc, sp)
  | arg :: rest, argc, sp =>
    if MAXARG ≤ argc then none
    else
      let sp := lower sp (arg.length + 1)
      if sp < stackbase then none
      else if ¬ copyout t (arg.length + 1) sp (arg.length + 1) then none
      else pushLoop t stackbase rest (argc + 1) sp

/-- What comes after the last slash. -/
def last (path : List Byte) : List Byte := (path.reverse.takeWhile (· ≠ 47)).reverse

/-- `safestrcpy` into an array; a string that ends early gets a second NUL. -/
def safestrcpy (s t : List Byte) (n : Nat) : List Byte :=
  let copied := t.take (n - 1) ++ if t.length < n - 1 then [0, 0] else [0]
  copied ++ s.drop copied.length

/-- `bad:`, with the new table and its size and the inode if there are any. -/
def bad (table : Option (Pagetable × Nat)) (ip : Option Ip) : Exec n Int := do
  match table with
  | some (t, sz) =>
    onMemory fun m => do
      let m ← proc_freepagetable t sz m
      .ok ((), m)
  | none => pure ()
  match ip with
  | some ip =>
    onFs (iunlockput ip)
    onFs end_op
  | none => pure ()
  return -1

def Process.replace (p : Process) (path : List Byte) (entry sp : Nat) (t : Pagetable) (sz : Nat) :
    Process :=
  { p with
    name := safestrcpy p.name (last path) 16
    pagetable := t
    sz := sz
    regs := ⟨entry, sp, sp⟩ }

/-- The process gets the new image, and the old one is freed. -/
def commit (path : List Byte) (entry argc sp : Nat) (t : Pagetable) (sz : Nat) : Exec n Int := do
  let p := (← get).proc
  modify fun w => { w with proc := p.replace path entry sp t sz }
  onMemory fun m => do
    let m ← proc_freepagetable p.pagetable p.sz m
    .ok ((), m)
  return argc

/-- The page below the stack, and the arguments on the stack. -/
def fillStack (path : List Byte) (argv : List (List Byte)) (entry : Nat) (t : Pagetable)
    (sz : Nat) : Exec n Int := do
  let t ← onMemory (uvmclear t (sz - 2 * PGSIZE))
  let stackbase := sz - PGSIZE
  match pushLoop t stackbase argv 0 sz with
  | none => bad (some (t, sz)) none
  | some (argc, sp) =>
    if MAXARG ≤ argc then throw .ustack
    else
      let sp := lower sp ((argc + 1) * 8)
      if sp < stackbase then bad (some (t, sz)) none
      else if ¬ copyout t ((argc + 1) * 8) sp ((argc + 1) * 8) then bad (some (t, sz)) none
      else commit path entry argc sp t sz

/-- From the stack on; the inode is given back. -/
def finish (path : List Byte) (argv : List (List Byte)) (entry : Nat) (t : Pagetable) (sz : Nat) :
    Exec n Int := do
  let sz := PGROUNDUP sz
  let (sz1, t) ← onMemory fun m => do
    let (sz1, t, m) ← uvmalloc t sz ((sz + 2 * PGSIZE) % 2 ^ 64) ⟨false, true, false, false⟩ m
    .ok ((sz1, t), m)
  if sz1 = 0 then bad (some (t, sz)) none else fillStack path argv entry t sz1

/-- How `namei` goes: from the root or not, and over how many elements. -/
def route (path : List Byte) : Path :=
  ⟨path.head? = some 47, ((path.splitOn 47).filter (· ≠ [])).length⟩

def exec (trampoline : Page) (p : Fin n) (path : List Byte) (argv : List (List Byte)) :
    Exec n Int := do
  onFs begin_op
  match ← onFs (namei p (route path)) with
  | none =>
    onFs end_op
    return -1
  | some ip =>
    onFs (ilock ip)
    let bytes ← readi
    let elf := elfhdr bytes
    if bytes.length ≠ 64 then bad none (some ip)
    else if elf.magic ≠ ELF_MAGIC then bad none (some ip)
    else
      let w ← get
      match ← onMemory (proc_pagetable trampoline w.proc.trapframe) with
      | none => bad none (some ip)
      | some t =>
        let (loaded, t, sz) ← loadLoop elf.phnum t 0
        if ¬ loaded then bad (some (t, sz)) (some ip)
        else
          onFs (iunlockput ip)
          onFs end_op
          finish path argv elf.entry t sz

end ExecCalls
