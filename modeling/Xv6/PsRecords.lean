import Mathlib.Data.List.FinRange
import Xv6.ByteCopies
import Xv6.ProcTable
import Xv6.Strings

/-!
# The bytes that ps copies out

`sys_ps` of `kernel/sysproc.c` fills an array of `struct ps_struct` on the kernel
stack and copies the records to the user. Their fields take 34 bytes and the
structure is aligned to four, so two bytes follow `name` that no statement
assigns.
-/

namespace PsRecords

open ProcTable ByteMemory Strings UserCopies ByteCopies

/-- What `sys_ps` reads of a process; `name` is read through a pointer. -/
structure PsProc where
  state : ProcState
  pid : BitVec 32
  parent : Option Slot
  name : Nat → Byte

def ascii (s : String) : List Byte := s.toList.map fun c => BitVec.ofNat 8 c.toNat

def stateStr : ProcState → List Byte
  | .unused => ascii "UNUSED"
  | .used => ascii "USED"
  | .sleeping => ascii "SLEEPING"
  | .runnable => ascii "RUNNABLE"
  | .running => ascii "RUNNING"
  | .zombie => ascii "ZOMBIE"

/-- `sizeof(struct ps_struct)`: `pid` at 0, `ppid` at 4, `state` at 8, `name` at 18,
and two bytes to the next multiple of four. -/
def psSize : Nat := 36

/-- The body of the loop over `proc`; the array `ps` lies at address 0 of the stack. -/
def psTurn (proc : Slot → PsProc) (s : Memory × Nat) (i : Slot) : Memory × Nat :=
  let (stack, numProc) := s
  if (proc i).state ≠ .unused then
    let ps := psSize * numProc
    let stack := storeWord stack ps (proc i).pid
    let stack := storeWord stack (ps + 4) (match (proc i).parent with
      | some j => (proc j).pid
      | none => 0)
    let stack := strncpy stack (ps + 8) (literal (stateStr (proc i).state)) 10
    let stack := strncpy stack (ps + 18) (proc i).name 16
    (stack, numProc + 1)
  else (stack, numProc)

def psLoop (proc : Slot → PsProc) (stack : Memory) : Memory × Nat :=
  (List.finRange nproc).foldl (psTurn proc) (stack, 0)

/-- `numProc * sizeof(struct ps_struct)` bytes from the array on. -/
def psBytes (proc : Slot → PsProc) (stack : Memory) : List Byte :=
  let (stack, numProc) := psLoop proc stack
  load stack 0 (numProc * psSize)

/-- The call; `argAddr` is its argument and `stack` what the kernel stack holds before. -/
def sysPs (tables : Tables) (pagetable : Nat) (m : Memory) (argAddr : Nat)
    (proc : Slot → PsProc) (stack : Memory) : Int × Memory :=
  let (result, m) := copyout tables pagetable m argAddr (psBytes proc stack)
  if result < 0 then (-1, m) else ((psLoop proc stack).2, m)

/-- The bytes that the call copies to user space. -/
def psCopied (tables : Tables) (pagetable argAddr : Nat) (proc : Slot → PsProc)
    (stack : Memory) : List Byte :=
  (psBytes proc stack).take (reach tables pagetable argAddr (psBytes proc stack).length)

variable {proc : Slot → PsProc}

/-- A used slot gives a record of 34 bytes that depend on the table only. -/
theorem psTurn_used {i : Slot} (used : (proc i).state ≠ .unused) :
    ∃ bs : List Byte, bs.length = 34 ∧ ∀ stack numProc,
      psTurn proc (stack, numProc) i = (store stack (psSize * numProc) bs, numProc + 1) := by
  let state := padded (literal (stateStr (proc i).state)) 10
  let name := padded (proc i).name 16
  have lengths : state.length = 10 ∧ name.length = 16 :=
    ⟨padded_length _ 10, padded_length _ 16⟩
  let ppid : BitVec 32 := match (proc i).parent with
    | some j => (proc j).pid
    | none => 0
  refine ⟨word (proc i).pid ++ word ppid ++ state ++ name, by simp [word, lengths],
    fun stack numProc => ?_⟩
  simp only [psTurn, used, ne_eq, not_false_eq_true, if_true, strncpy_eq, storeWord]
  rw [← store_append, ← store_append, ← store_append]
  simp only [List.length_append, lengths, word, List.length_cons, List.length_nil, Nat.add_assoc]
  rfl

theorem psTurn_unused {i : Slot} (unused : (proc i).state = .unused) (s : Memory × Nat) :
    psTurn proc s i = s := by
  simp [psTurn, unused]

/-- A turn leaves alone what lies outside the fields of the records so far, and two
turns that agree on these fields go on to agree on them. -/
theorem psTurn_fields (proc : Slot → PsProc) (i : Slot) (x y : Memory × Nat) (same : y.2 = x.2)
    (fields : ∀ a, a < psSize * x.2 → a % psSize < 34 → x.1 a = y.1 a) :
    (psTurn proc x i).2 = x.2 + (if (proc i).state ≠ .unused then 1 else 0) ∧
    (psTurn proc y i).2 = (psTurn proc x i).2 ∧
    (∀ a, a < psSize * (psTurn proc x i).2 → a % psSize < 34 →
      (psTurn proc x i).1 a = (psTurn proc y i).1 a) ∧
    ∀ a, 34 ≤ a % psSize → (psTurn proc x i).1 a = x.1 a := by
  by_cases used : (proc i).state = .unused
  · rw [psTurn_unused used, psTurn_unused used]
    exact ⟨by simp [used], same, fields, fun _ _ => rfl⟩
  · obtain ⟨bs, length, turn⟩ := psTurn_used used
    have tx : psTurn proc x i = _ := turn x.1 x.2
    have ty : psTurn proc y i = _ := turn y.1 y.2
    rw [tx, ty]
    refine ⟨by simp [used], congrArg (· + 1) same, fun a low field => ?_, fun a pad => ?_⟩
    · simp only [psSize] at low field fields ⊢
      rw [same]
      by_cases old : a < 36 * x.2
      · rw [store_outside (.inl old), store_outside (.inl old)]
        exact fields a old field
      · obtain ⟨k, rfl⟩ := Nat.exists_eq_add_of_le (Nat.le_of_not_lt old)
        have inside : k < bs.length := by omega
        rw [store_inside inside, store_inside inside]
    · simp only [psSize] at pad ⊢
      refine store_outside ?_
      omega

/-- What the loop does to two stacks. -/
theorem psLoop_fields (proc : Slot → PsProc) (L : List Slot) (x y : Memory × Nat) (same : y.2 = x.2)
    (fields : ∀ a, a < psSize * x.2 → a % psSize < 34 → x.1 a = y.1 a) :
    (L.foldl (psTurn proc) x).2 = x.2 + L.countP (fun i => (proc i).state ≠ .unused) ∧
    (L.foldl (psTurn proc) y).2 = (L.foldl (psTurn proc) x).2 ∧
    (∀ a, a < psSize * (L.foldl (psTurn proc) x).2 → a % psSize < 34 →
      (L.foldl (psTurn proc) x).1 a = (L.foldl (psTurn proc) y).1 a) ∧
    ∀ a, 34 ≤ a % psSize → (L.foldl (psTurn proc) x).1 a = x.1 a := by
  induction L generalizing x y with
  | nil => exact ⟨rfl, same, fields, fun _ _ => rfl⟩
  | cons i L ih =>
    obtain ⟨count, same', fields', pad⟩ := psTurn_fields proc i x y same fields
    obtain ⟨total, last, agree, kept⟩ := ih _ _ same' fields'
    refine ⟨?_, last, agree, fun a h => (kept a h).trans (pad a h)⟩
    rw [List.foldl_cons, total, count, List.countP_cons, Nat.add_assoc,
      Nat.add_comm (List.countP _ L)]
    simp

/-- How many processes the table holds. -/
def inUse (proc : Slot → PsProc) : Nat :=
  (List.finRange nproc).countP fun i => (proc i).state ≠ .unused

theorem psLoop_spec (proc : Slot → PsProc) (stack stack' : Memory) :
    (psLoop proc stack).2 = inUse proc ∧
    (∀ a, a < psSize * inUse proc → a % psSize < 34 →
      (psLoop proc stack).1 a = (psLoop proc stack').1 a) ∧
    ∀ a, 34 ≤ a % psSize → (psLoop proc stack).1 a = stack a := by
  obtain ⟨total, -, agree, pad⟩ := psLoop_fields proc (List.finRange nproc) (stack, 0)
    (stack', 0) rfl (fun a low _ => absurd low (Nat.not_lt_zero a))
  have count : (psLoop proc stack).2 = inUse proc := by
    rw [psLoop, total, inUse, Nat.zero_add]
  refine ⟨count, fun a low => agree a ?_, pad⟩
  rw [psLoop] at count
  rwa [count]

theorem load_take (m : Memory) (a : Nat) {k n : Nat} (le : k ≤ n) :
    (load m a n).take k = load m a k := by
  rw [load, load, ← List.map_take, List.take_range, min_eq_left le]

variable {tables : Tables} {pagetable argAddr : Nat}

theorem psCopied_eq (stack : Memory) :
    psCopied tables pagetable argAddr proc stack =
      load (psLoop proc stack).1 0
        (reach tables pagetable argAddr (inUse proc * psSize)) := by
  obtain ⟨count, -⟩ := psLoop_spec proc stack stack
  rw [psCopied, psBytes]
  simp only [load_length, count]
  exact load_take _ _ (reach_le _ _ _ _)

/-- What the call does to user memory is to copy these bytes, and it returns the number
of records when they are all. -/
theorem sysPs_eq (m stack : Memory) :
    copyout tables pagetable m argAddr (psCopied tables pagetable argAddr proc stack) =
      (0, (sysPs tables pagetable m argAddr proc stack).2) ∧
    (sysPs tables pagetable m argAddr proc stack).1 =
      if psCopied tables pagetable argAddr proc stack = psBytes proc stack then
        (inUse proc : Int) else -1 := by
  have count := (psLoop_spec proc stack stack).1
  have far := reach_le tables pagetable argAddr (psBytes proc stack).length
  have whole : psCopied tables pagetable argAddr proc stack = psBytes proc stack ↔
      (copyout tables pagetable m argAddr (psBytes proc stack)).1 = 0 := by
    rw [copyout_zero_iff, ← reach_eq_iff]
    constructor
    · intro same
      have length := congrArg List.length same
      rw [psCopied, List.length_take] at length
      omega
    · exact fun all => List.take_of_length_le all.ge
  have copied : copyout tables pagetable m argAddr (psCopied tables pagetable argAddr proc stack) =
      (0, (copyout tables pagetable m argAddr (psBytes proc stack)).2) := copyout_reach ..
  simp only [sysPs, whole]
  rcases copyout_result tables pagetable m argAddr (psBytes proc stack) with done | fails
  · simpa [done, count] using copied
  · simpa [fails] using copied

/-- Two stacks, one all zeroes and one all ones, give different copies as soon as the
first record is copied up to its padding. -/
theorem padding_copied {i : Slot} (used : (proc i).state ≠ .unused)
    (far : ∀ k ≤ 34, Passes tables pagetable (argAddr + k)) :
    psCopied tables pagetable argAddr proc (fun _ => 0) ≠
      psCopied tables pagetable argAddr proc fun _ => 1 := by
  have some : 0 < inUse proc :=
    List.countP_pos_iff.mpr ⟨i, List.mem_finRange i, decide_eq_true used⟩
  have reached : 34 < reach tables pagetable argAddr (inUse proc * psSize) :=
    lt_reach.mpr ⟨by rw [psSize]; omega, far⟩
  have read (stack : Memory) :
      (psCopied tables pagetable argAddr proc stack)[34]? = .some (stack 34) := by
    obtain ⟨-, -, pad⟩ := psLoop_spec proc stack stack
    rw [psCopied_eq, load, List.getElem?_map, List.getElem?_range reached, Option.map_some,
      Nat.zero_add, pad 34 (by decide)]
  intro equal
  have byte := (read _).symm.trans ((congrArg (·[34]?) equal).trans (read _))
  cases Option.some.inj byte

/-- The copied bytes are the same for all stacks exactly when no padding is among them: no
process is in use, or one of the first 35 bytes cannot be written. -/
theorem copied_fixed_iff :
    (∀ stack stack', psCopied tables pagetable argAddr proc stack =
      psCopied tables pagetable argAddr proc stack') ↔
    (∀ i, (proc i).state = .unused) ∨ ∃ k ≤ 34, ¬ Passes tables pagetable (argAddr + k) := by
  constructor
  · intro fixed
    by_contra neither
    push Not at neither
    obtain ⟨⟨i, used⟩, far⟩ := neither
    exact padding_copied used far (fixed _ _)
  · intro short stack stack'
    have near : reach tables pagetable argAddr (inUse proc * psSize) ≤ 34 := by
      by_contra long
      obtain ⟨some, all⟩ := lt_reach.mp (Nat.lt_of_not_le long)
      rcases short with unused | ⟨k, low, refused⟩
      · have none : inUse proc = 0 := by
          refine List.countP_eq_zero.mpr fun i _ => ?_
          simp [unused i]
        simp [none] at some
      · exact refused (all k low)
    have within := reach_le tables pagetable argAddr
      (inUse proc * psSize)
    rw [psCopied_eq, psCopied_eq]
    refine Agree.load fun a _ high => ?_
    obtain ⟨-, agree, -⟩ := psLoop_spec proc stack stack'
    simp only [psSize] at agree within near high
    exact agree a (by omega) (by omega)

/-- A table in which only slot 0 is in use. -/
def onlyInit (i : Slot) : PsProc where
  state := if i = initproc then .running else .unused
  pid := 1
  parent := none
  name := literal (ascii "init")

/-- Every page may be written. -/
def mapped : Tables := fun _ _ => PA2PTE 0x87f00000 ||| PTE_V ||| PTE_U ||| PTE_W

theorem padding_of_init : ∃ stack stack',
    psCopied mapped 0 0 onlyInit stack ≠ psCopied mapped 0 0 onlyInit stack' := by
  refine ⟨_, _, padding_copied (i := initproc) nofun fun k low => ?_⟩
  have page : PGROUNDDOWN (0 + k) = 0 := by
    unfold PGROUNDDOWN PGSIZE
    omega
  rw [Passes, page]
  decide +kernel

end PsRecords
