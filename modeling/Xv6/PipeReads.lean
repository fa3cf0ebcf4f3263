import Xv6.ByteCopies
import Xv6.PipeCalls

/-!
# Reads from a pipe into user memory

`piperead` counts a byte as read before `copyout` has put it into the user's memory.
A byte that cannot be put there is in neither place afterwards, so that a call
removes what it delivers exactly if it may write all the bytes that it meets.
-/

namespace PipeReads

open ByteMemory UserCopies ByteCopies PipeCalls RingCounters

/-- The loop that copies, with `left` bytes to go. -/
def copyLoop (tables : Tables) (pagetable addr : Nat) :
    Nat → Nat → Pipe → Memory → Nat × Pipe × Memory
  | 0, i, pi, m => (i, pi, m)
  | left + 1, i, pi, m =>
    if pi.empty then (i, pi, m)
    else
      let ch := pi.front
      let pi := pi.remove
      match copyout tables pagetable m ((addr + i) % 2 ^ 64) [ch] with
      | (-1, m) => (i, pi, m)
      | (_, m) => copyLoop tables pagetable addr left (i + 1) pi m

/-- The loop that waits, by what each test finds: the pipe, and whether the process is killed.
It goes on with a pipe, returns because of a kill, or is not over yet. -/
def waitLoop : List (Pipe × Bool) → Option (Option Pipe)
  | [] => none
  | (pi, killed) :: later =>
    if pi.empty ∧ pi.writeopen then
      if killed then some none else waitLoop later
    else some (some pi)

/-- The value returned, the pipe if it was read from, and the user's memory. -/
def piperead (tables : Tables) (pagetable : Nat) (tests : List (Pipe × Bool)) (addr : Nat)
    (n : BitVec 32) (m : Memory) : Option (Int × Option Pipe × Memory) :=
  match waitLoop tests with
  | none => none
  | some none => some (-1, none, m)
  | some (some pi) =>
    let (i, pi, m) := copyLoop tables pagetable addr n.toInt.toNat 0 pi m
    some (i, some pi, m)

variable {tables : Tables} {pagetable : Nat}

/-- The pipe after `k` bytes are removed. -/
def without (pi : Pipe) (k : Nat) : Pipe := { pi with nread := pi.nread + BitVec.ofNat 32 k }

/-- The next `k` bytes of a pipe. -/
def next (pi : Pipe) (k : Nat) : List Byte := window PIPESIZE pi.data pi.nread k

/-- How many bytes a read of `left` meets. -/
def met (pi : Pipe) (left : Nat) : Nat := min left (span pi.nread pi.nwrite)

theorem remove_eq (pi : Pipe) : pi.remove = without pi 1 := rfl

theorem without_without (pi : Pipe) (j k : Nat) :
    without (without pi j) k = without pi (j + k) := by
  simp [without, BitVec.ofNat_add, BitVec.add_assoc]

theorem next_succ (pi : Pipe) (k : Nat) : next pi (k + 1) = pi.front :: next pi.remove k :=
  window_cons

theorem met_succ {pi : Pipe} (some : ¬ pi.empty) (left : Nat) :
    met pi (left + 1) = met pi.remove left + 1 := by
  have less := span_pred some
  change min (left + 1) (span pi.nread pi.nwrite) = min left (span (pi.nread + 1) pi.nwrite) + 1
  omega

theorem copyout_byte (m : Memory) (va : Nat) (ch : Byte) :
    copyout tables pagetable m va [ch] =
      if Passes tables pagetable va then (0, store m (target tables pagetable va) [ch])
      else (-1, m) := by
  rw [copyout_bytes]
  split
  · rename_i pass
    rw [copyoutBytes_cons _ _ _ _ pass, copyoutBytes]
  · rename_i no
    exact copyoutBytes_refused (List.cons_ne_nil _ _) no

theorem passes_low {va : Nat} (pass : Passes tables pagetable va) : va + 1 < 2 ^ 64 := by
  have low : PGROUNDDOWN va < MAXVA := by
    by_contra high
    exact pass (dif_neg high)
  simp only [PGROUNDDOWN, PGSIZE, MAXVA] at low
  omega

section

variable {pi : Pipe} {m : Memory} {addr i left : Nat}

theorem copyLoop_empty (none : pi.empty) :
    copyLoop tables pagetable addr (left + 1) i pi m = (i, pi, m) := by
  rw [copyLoop, if_pos none]

theorem copyLoop_pass (some : ¬ pi.empty) (low : addr + i < 2 ^ 64)
    (pass : Passes tables pagetable (addr + i)) :
    copyLoop tables pagetable addr (left + 1) i pi m =
      copyLoop tables pagetable addr left (i + 1) pi.remove
        (store m (target tables pagetable (addr + i)) [pi.front]) := by
  rw [copyLoop, if_neg some]
  simp only [Nat.mod_eq_of_lt low, copyout_byte, if_pos pass]

theorem copyLoop_fail (some : ¬ pi.empty) (low : addr + i < 2 ^ 64)
    (fails : ¬ Passes tables pagetable (addr + i)) :
    copyLoop tables pagetable addr (left + 1) i pi m = (i, pi.remove, m) := by
  rw [copyLoop, if_neg some]
  simp only [Nat.mod_eq_of_lt low, copyout_byte, if_neg fails]

end

/-- How many of `len` bytes leave the pipe when `k` of them can be delivered. -/
def removed (k len : Nat) : Nat := if k = len then len else k + 1

theorem removed_succ (k len : Nat) : removed (1 + k) (len + 1) = 1 + removed k len := by
  simp only [removed, Nat.add_comm len, Nat.add_right_inj]
  split
  · rfl
  · exact Nat.add_assoc 1 k 1

theorem removed_eq_iff {k len : Nat} : removed k len = k ↔ k = len := by
  rw [removed]
  split <;> omega

theorem removed_le {k len : Nat} (le : k ≤ len) : removed k len ≤ len := by
  rw [removed]
  split <;> omega

/-- The loop delivers the bytes within reach, and loses the one after them if there is one. -/
theorem copyLoop_eq (tables : Tables) (pagetable left i : Nat) (pi : Pipe) (m : Memory)
    {addr : Nat} (low : addr + i < 2 ^ 64) :
    ∃ m', copyoutBytes tables pagetable m (addr + i)
        (next pi (reach tables pagetable (addr + i) (met pi left))) = (0, m') ∧
      copyLoop tables pagetable addr left i pi m =
        (i + reach tables pagetable (addr + i) (met pi left),
          without pi (removed (reach tables pagetable (addr + i) (met pi left)) (met pi left)),
          m') := by
  induction left generalizing i pi m with
  | zero =>
    have none : met pi 0 = 0 := Nat.zero_min _
    refine ⟨m, ?_, ?_⟩
    · simp [none, reach, next, copyoutBytes]
    · simp [none, reach, copyLoop, without, removed]
  | succ left ih =>
    by_cases empty : pi.empty
    · have none : met pi (left + 1) = 0 := by
        have zero : span pi.nread pi.nwrite = 0 := span_eq_zero.mpr empty
        rw [met, zero, Nat.min_zero]
      refine ⟨m, ?_, ?_⟩
      · simp [none, reach, next, copyoutBytes]
      · simp [none, reach, without, removed, copyLoop_empty empty]
    · rw [met_succ empty, reach]
      by_cases pass : Passes tables pagetable (addr + i)
      · obtain ⟨m', copied, loop⟩ := ih (i + 1) pi.remove
          (store m (target tables pagetable (addr + i)) [pi.front]) (passes_low pass)
        rw [← Nat.add_assoc] at copied loop
        refine ⟨m', ?_, ?_⟩
        · rw [if_pos pass, Nat.add_comm 1, next_succ, copyoutBytes_cons _ _ _ _ pass]
          exact copied
        · rw [if_pos pass, copyLoop_pass empty low pass, loop, remove_eq, without_without,
            removed_succ, Nat.add_assoc]
      · refine ⟨m, ?_, ?_⟩
        · rw [if_neg pass]
          simp [next, copyoutBytes]
        · rw [if_neg pass, copyLoop_fail empty low pass, remove_eq, removed,
            if_neg (Nat.succ_ne_zero _).symm]
          rfl

/-- `k` bytes have left the pipe, and they are in the user's memory from `addr` on. -/
def Delivered (tables : Tables) (pagetable addr : Nat) (pi pi' : Pipe) (m m' : Memory) (k : Nat) :
    Prop :=
  pi' = without pi k ∧ copyoutBytes tables pagetable m addr (next pi k) = (0, m')

theorem without_inj {pi : Pipe} {j k : Nat} (hj : j < 2 ^ 32) (hk : k < 2 ^ 32)
    (same : without pi j = without pi k) : j = k := by
  have counters : pi.nread + BitVec.ofNat 32 j = pi.nread + BitVec.ofNat 32 k :=
    congrArg Pipe.nread same
  rw [← span_add pi.nread hj, counters, span_add pi.nread hk]

/-- A read that goes on with a pipe returns what it has delivered, and has removed no more,
exactly if it may write all the bytes that it meets. -/
theorem read_delivers_iff (tests : List (Pipe × Bool)) {addr : Nat} (n : BitVec 32) (m : Memory)
    {pi : Pipe} (ready : waitLoop tests = some (some pi)) (low : addr < 2 ^ 64) :
    (∃ k pi' m', piperead tables pagetable tests addr n m = some (Int.ofNat k, some pi', m') ∧
      Delivered tables pagetable addr pi pi' m m' k) ↔
    ∀ va, Within addr (met pi n.toInt.toNat) va → Passes tables pagetable va := by
  have start : addr + 0 < 2 ^ 64 := low
  obtain ⟨m', copied, loop⟩ := copyLoop_eq tables pagetable n.toInt.toNat 0 pi m start
  rw [Nat.add_zero, Nat.zero_add] at loop
  rw [Nat.add_zero] at copied
  rw [← reach_eq_iff]
  set len := met pi n.toInt.toNat with hlen
  set k := reach tables pagetable addr len with hk
  have le : k ≤ len := reach_le tables pagetable addr len
  have small : len < 2 ^ 32 := (min_le_right _ _).trans_lt (span_lt pi.nread pi.nwrite)
  have result : piperead tables pagetable tests addr n m =
      some (Int.ofNat k, some (without pi (removed k len)), m') := by
    simp only [piperead, ready, loop]
    rfl
  rw [result]
  constructor
  · rintro ⟨k', pi', m'', same, rest, -⟩
    simp only [Option.some.injEq, Prod.mk.injEq, Int.ofNat_eq_natCast, Nat.cast_inj] at same
    obtain ⟨rfl, rfl, -⟩ := same
    have counted := without_inj ((removed_le le).trans_lt small) (le.trans_lt small) rest
    exact removed_eq_iff.mp counted
  · intro all
    refine ⟨k, _, m', rfl, ?_, copied⟩
    rw [removed_eq_iff.mpr all]

/-- One writable page at address 0. -/
def onePage : Tables := fun pagetable i =>
  if i ≠ 0 then 0
  else if pagetable = 0x1000 then PA2PTE 0x2000 ||| PTE_V
  else if pagetable = 0x2000 then PA2PTE 0x3000 ||| PTE_V
  else uvmalloc.entry 0x80000000 PTE_W

/-- Three bytes in the pipe, across the end of the counters. -/
def threeBytes : Pipe := ⟨fun i => BitVec.ofNat 8 i, 0xffffffff, 2, true, true⟩

/-- Two bytes fit in the page behind address 4094, and a third one is lost. -/
theorem read_delivers_two :
    (∃ pi' m', piperead onePage 0x1000 [(threeBytes, false)] 4094 2 (fun _ => 0) =
        some (2, some pi', m') ∧
      Delivered onePage 0x1000 4094 threeBytes pi' (fun _ => 0) m' 2) ∧
    ¬ ∃ k pi' m', piperead onePage 0x1000 [(threeBytes, false)] 4094 3 (fun _ => 0) =
        some (Int.ofNat k, some pi', m') ∧
      Delivered onePage 0x1000 4094 threeBytes pi' (fun _ => 0) m' k := by
  have mapped : ∀ va, Within 4094 (met threeBytes 2) va → Passes onePage 0x1000 va := by
    rintro va ⟨low, high⟩
    have top : va < 4096 := high
    have page : PGROUNDDOWN va = PGROUNDDOWN 0 := by
      simp only [PGROUNDDOWN, PGSIZE]
      omega
    unfold Passes
    rw [page]
    decide
  have unmapped : ¬ Passes onePage 0x1000 4096 := by
    unfold Passes
    decide
  have ready : waitLoop [(threeBytes, false)] = some (some threeBytes) := rfl
  have low : 4094 < 2 ^ 64 := by decide
  have two : (2 : BitVec 32).toInt.toNat = 2 := by decide
  constructor
  · obtain ⟨k, pi', m', ran, delivered⟩ :=
      (read_delivers_iff [(threeBytes, false)] 2 (fun _ => 0) ready low).mpr mapped
    have all : reach onePage 0x1000 4094 (met threeBytes 2) = 2 := reach_eq_iff.mpr mapped
    obtain ⟨m'', -, loop⟩ := copyLoop_eq onePage 0x1000 2 0 threeBytes (fun _ => 0) low
    rw [all] at loop
    have value : k = 2 := by
      simp only [piperead, ready, two, loop, Option.some.injEq, Prod.mk.injEq] at ran
      exact (Int.ofNat.inj ran.1).symm
    subst value
    exact ⟨pi', m', ran, delivered⟩
  · intro delivers
    refine unmapped ?_
    exact (read_delivers_iff [(threeBytes, false)] 3 (fun _ => 0) ready low).mp delivers 4096
      ⟨by decide, by decide⟩

/-- One byte in the pipe, and nothing mapped at address 0. -/
def oneByte : Pipe := ⟨fun _ => 120, 0, 1, true, true⟩

/-- The byte is neither in the pipe nor in the user's memory. -/
theorem byte_lost : ¬ ∃ k pi' m',
    piperead (fun _ _ => 0) 0x1000 [(oneByte, false)] 0 1 (fun _ => 0) =
      some (Int.ofNat k, some pi', m') ∧
    Delivered (fun _ _ => 0) 0x1000 0 oneByte pi' (fun _ => 0) m' k := by
  have fails : ¬ Passes (fun _ _ => 0) 0x1000 (0 + 0) := by decide
  have some_ : ¬ oneByte.empty := by decide
  have result : piperead (fun _ _ => 0) 0x1000 [(oneByte, false)] 0 1 (fun _ => 0) =
      some (0, some oneByte.remove, fun _ => 0) := by
    have one : (1 : BitVec 32).toInt.toNat = 0 + 1 := by decide
    have ready : waitLoop [(oneByte, false)] = some (some oneByte) := rfl
    simp only [piperead, ready, one, copyLoop_fail some_ (by decide) fails]
    rfl
  rw [result]
  rintro ⟨k, pi', m', same, rest, -⟩
  simp only [Option.some.injEq, Prod.mk.injEq] at same
  obtain ⟨zero, rfl, -⟩ := same
  have none : k = 0 := (Int.ofNat_eq_zero.mp zero.symm)
  subst none
  have counted : (1 : BitVec 32) = 0 := congrArg Pipe.nread rest
  exact absurd counted (by decide)

end PipeReads
