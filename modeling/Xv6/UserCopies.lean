import Xv6.Lib.ByteMemory

/-!
# Copies from the kernel into user memory

Every system call that hands data to a process goes through `copyout`, a loop over
the pages of the destination. Its only permission test is the one of `walkaddr`,
which also serves the copies out of user memory and asks for `PTE_V` and `PTE_U`.
The pages of the page tables are kernel pages, apart from the bytes that are copied.
-/

namespace UserCopies

open ByteMemory

def PGSIZE : Nat := 4096

def MAXVA : Nat := 2 ^ (9 + 9 + 9 + 12 - 1)

abbrev Pte := BitVec 64

def PTE_V : Pte := 1 <<< 0
def PTE_R : Pte := 1 <<< 1
def PTE_W : Pte := 1 <<< 2
def PTE_X : Pte := 1 <<< 3
def PTE_U : Pte := 1 <<< 4

def PA2PTE (pa : Nat) : Pte := (BitVec.ofNat 64 pa >>> 12) <<< 10

def PTE2PA (pte : Pte) : Nat := ((pte >>> 10) <<< 12).toNat

def PX (level va : Nat) : Nat := va / 2 ^ (12 + 9 * level) % 512

def PGROUNDDOWN (a : Nat) : Nat := a - a % PGSIZE

/-- The 512 entries of the page-table page at each physical address. -/
abbrev Tables := Nat → Nat → Pte

/-- `walk` panics at any other address. -/
abbrev Mappable := { va : Nat // va < MAXVA }

/-- The loop of `walk` from `level` down, with `alloc` zero. -/
def walkFrom (tables : Tables) (va : Nat) : Nat → Nat → Option Pte
  | 0, pagetable => some (tables pagetable (PX 0 va))
  | level + 1, pagetable =>
    let pte := tables pagetable (PX (level + 1) va)
    if pte &&& PTE_V ≠ 0 then walkFrom tables va level (PTE2PA pte) else none

def walk (tables : Tables) (pagetable : Nat) (va : Mappable) : Option Pte :=
  walkFrom tables va 2 pagetable

def walkaddr (tables : Tables) (pagetable va : Nat) : Nat :=
  if low : va < MAXVA then
    match walk tables pagetable ⟨va, low⟩ with
    | none => 0
    | some pte =>
      if pte &&& PTE_V = 0 then 0
      else if pte &&& PTE_U = 0 then 0
      else PTE2PA pte
  else 0

/-- The bytes that fit in the page of `dstva`. -/
def room (dstva : Nat) : Nat := PGSIZE - (dstva - PGROUNDDOWN dstva)

theorem dstva_sub_round (dstva : Nat) : dstva - PGROUNDDOWN dstva = dstva % PGSIZE := by
  have le : dstva % PGSIZE ≤ dstva := Nat.mod_le _ _
  unfold PGROUNDDOWN
  omega

theorem room_eq (dstva : Nat) : room dstva = PGSIZE - dstva % PGSIZE := by
  rw [room, dstva_sub_round]

theorem room_pos (dstva : Nat) : 0 < room dstva := by
  have : dstva % PGSIZE < PGSIZE := Nat.mod_lt _ (by decide)
  rw [room_eq]
  omega

/-- `src` holds the `len` bytes that are left to copy. -/
def copyout (tables : Tables) (pagetable : Nat) (m : Memory) (dstva : Nat) (src : List Byte) :
    Int × Memory :=
  if _done : src = [] then (0, m)
  else
    let va0 := PGROUNDDOWN dstva
    let pa0 := walkaddr tables pagetable va0
    if pa0 = 0 then (-1, m)
    else
      let n := min (room dstva) src.length
      copyout tables pagetable (store m (pa0 + (dstva - va0)) (src.take n)) (va0 + PGSIZE)
        (src.drop n)
termination_by src.length
decreasing_by
  have := room_pos dstva
  have := List.length_pos_iff.mpr _done
  simp only [List.length_drop]
  omega

/-- `len` bytes of the user from `srcva` on go to `buf` from `dst` on. -/
def copyin (tables : Tables) (pagetable : Nat) (m buf : Memory) (dst srcva len : Nat) :
    Int × Memory :=
  if _done : len = 0 then (0, buf)
  else
    let va0 := PGROUNDDOWN srcva
    let pa0 := walkaddr tables pagetable va0
    if pa0 = 0 then (-1, buf)
    else
      let n := min (room srcva) len
      copyin tables pagetable m (store buf dst (load m (pa0 + (srcva - va0)) n)) (dst + n)
        (va0 + PGSIZE) (len - n)
termination_by len
decreasing_by
  have := room_pos srcva
  omega

/-- The permissions of a segment that `exec` loads, from the flags of its header. -/
def flags2perm (flags : BitVec 32) : Pte :=
  let perm := if flags &&& 1 ≠ 0 then PTE_X else 0
  if flags &&& 2 ≠ 0 then perm ||| PTE_W else perm

/-- What `uvmalloc` writes through `mappages` into the entry of a page of the segment. -/
def uvmalloc.entry (pa : Nat) (xperm : Pte) : Pte :=
  PA2PTE pa ||| (PTE_R ||| PTE_U ||| xperm) ||| PTE_V

section

variable {tables : Tables} {pagetable : Nat}

/-- The entry that maps the page of an address. -/
def entry (tables : Tables) (pagetable va : Nat) : Option Pte :=
  if low : PGROUNDDOWN va < MAXVA then walk tables pagetable ⟨PGROUNDDOWN va, low⟩ else none

/-- The test of `walkaddr` lets the page of an address through. -/
def Passes (tables : Tables) (pagetable va : Nat) : Prop :=
  walkaddr tables pagetable (PGROUNDDOWN va) ≠ 0

/-- The process may write the page of an address. -/
def MayWrite (tables : Tables) (pagetable va : Nat) : Prop :=
  ∃ pte, entry tables pagetable va = some pte ∧ pte &&& PTE_V ≠ 0 ∧ pte &&& PTE_U ≠ 0 ∧
    pte &&& PTE_W ≠ 0

/-- The physical byte lies in a page that an entry maps with all three bits. -/
def Writable (tables : Tables) (pagetable a : Nat) : Prop :=
  ∃ va pte, entry tables pagetable va = some pte ∧ pte &&& PTE_V ≠ 0 ∧ pte &&& PTE_U ≠ 0 ∧
    pte &&& PTE_W ≠ 0 ∧ PTE2PA pte ≤ a ∧ a < PTE2PA pte + PGSIZE

/-- The address is one of the `len` from `dstva` on. -/
def Within (dstva len va : Nat) : Prop := dstva ≤ va ∧ va < dstva + len

/-- The loop gets as far as this address. -/
def Reached (tables : Tables) (pagetable dstva len va : Nat) : Prop :=
  Within dstva len va ∧ ∀ va', dstva ≤ va' → va' ≤ va → Passes tables pagetable va'

/-- The physical byte behind an address. -/
def target (tables : Tables) (pagetable va : Nat) : Nat :=
  walkaddr tables pagetable (PGROUNDDOWN va) + va % PGSIZE

theorem round_add {dstva k : Nat} (same : k < room dstva) :
    PGROUNDDOWN (dstva + k) = PGROUNDDOWN dstva ∧ (dstva + k) % PGSIZE = dstva % PGSIZE + k := by
  rw [room_eq] at same
  have small : dstva % PGSIZE + k < PGSIZE := by omega
  have offset : (dstva + k) % PGSIZE = dstva % PGSIZE + k := by
    rw [Nat.add_mod, Nat.mod_eq_of_lt (a := k) (by omega), Nat.mod_eq_of_lt small]
  refine ⟨?_, offset⟩
  unfold PGROUNDDOWN
  rw [offset]
  omega

theorem next_page (dstva : Nat) : PGROUNDDOWN dstva + PGSIZE = dstva + room dstva := by
  have le : dstva % PGSIZE ≤ dstva := Nat.mod_le _ _
  have lt : dstva % PGSIZE < PGSIZE := Nat.mod_lt _ (by decide)
  rw [room_eq, PGROUNDDOWN]
  omega

theorem passes_add {dstva k : Nat} (same : k < room dstva) :
    Passes tables pagetable (dstva + k) ↔ Passes tables pagetable dstva := by
  rw [Passes, Passes, (round_add same).1]

theorem target_add {dstva k : Nat} (same : k < room dstva) :
    target tables pagetable (dstva + k) = target tables pagetable dstva + k := by
  obtain ⟨page, offset⟩ := round_add same
  rw [target, target, page, offset, Nat.add_assoc]

theorem copyout_nil (m : Memory) (dstva : Nat) :
    copyout tables pagetable m dstva [] = (0, m) := by
  rw [copyout, dif_pos rfl]

theorem copyout_refused {m : Memory} {dstva : Nat} {src : List Byte} (more : src ≠ [])
    (no : ¬ Passes tables pagetable dstva) :
    copyout tables pagetable m dstva src = (-1, m) := by
  have zero : walkaddr tables pagetable (PGROUNDDOWN dstva) = 0 := not_not.mp no
  rw [copyout, dif_neg more]
  simp only [zero, if_true]

theorem copyout_page {m : Memory} {dstva : Nat} {src : List Byte} (more : src ≠ [])
    (pass : Passes tables pagetable dstva) :
    copyout tables pagetable m dstva src =
      copyout tables pagetable (store m (target tables pagetable dstva) (src.take (room dstva)))
        (dstva + room dstva) (src.drop (room dstva)) := by
  rw [copyout, dif_neg more]
  simp only [if_neg (show ¬ walkaddr tables pagetable (PGROUNDDOWN dstva) = 0 from pass)]
  rw [dstva_sub_round, next_page, target]
  by_cases long : room dstva ≤ src.length
  · rw [min_eq_left long]
  · rw [min_eq_right (by omega), List.take_of_length_le (i := room dstva) (by omega),
      List.drop_eq_nil_of_le (i := room dstva) (by omega), List.take_length, List.drop_length]

/-- Induction over the pages of the destination. -/
theorem copyout_rule (tables : Tables) (pagetable : Nat) {C : Memory → Nat → List Byte → Prop}
    (nil : ∀ m dstva, C m dstva [])
    (refused : ∀ m dstva src, src ≠ [] → ¬ Passes tables pagetable dstva → C m dstva src)
    (page : ∀ m dstva src, src ≠ [] → Passes tables pagetable dstva →
      C (store m (target tables pagetable dstva) (src.take (room dstva))) (dstva + room dstva)
        (src.drop (room dstva)) → C m dstva src)
    (m : Memory) (dstva : Nat) (src : List Byte) : C m dstva src := by
  generalize hlen : src.length = len
  induction len using Nat.strongRecOn generalizing m dstva src with
  | ind len ih =>
    by_cases more : src = []
    · subst more
      exact nil m dstva
    · by_cases pass : Passes tables pagetable dstva
      · have positive := List.length_pos_iff.mpr more
        have := room_pos dstva
        refine page m dstva src more pass (ih _ ?_ _ _ _ rfl)
        rw [List.length_drop]
        omega
      · exact refused m dstva src more pass

/-- The rest of the loop reaches what the whole loop reaches behind the first page. -/
theorem reached_rest {dstva len va : Nat} (pass : Passes tables pagetable dstva)
    (far : dstva + room dstva ≤ va) :
    Reached tables pagetable (dstva + room dstva) (len - room dstva) va ↔
      Reached tables pagetable dstva len va := by
  constructor
  · rintro ⟨⟨low, high⟩, before⟩
    refine ⟨⟨by omega, by omega⟩, ?_⟩
    intro va' low' high'
    by_cases near : va' < dstva + room dstva
    · obtain ⟨k, rfl⟩ := Nat.exists_eq_add_of_le low'
      exact (passes_add (by omega)).mpr pass
    · exact before va' (by omega) high'
  · rintro ⟨⟨low, high⟩, before⟩
    exact ⟨⟨far, by omega⟩, fun va' low' high' => before va' (by omega) high'⟩

theorem copyout_result (tables : Tables) (pagetable : Nat) (m : Memory) (dstva : Nat)
    (src : List Byte) :
    (copyout tables pagetable m dstva src).1 = 0 ∨
      (copyout tables pagetable m dstva src).1 = -1 := by
  induction m, dstva, src using copyout_rule tables pagetable with
  | nil m dstva =>
    rw [copyout_nil]
    exact Or.inl rfl
  | refused m dstva src more no =>
    rw [copyout_refused more no]
    exact Or.inr rfl
  | page m dstva src more pass ih =>
    rw [copyout_page more pass]
    exact ih

/-- The call succeeds exactly if the test lets the whole range through. -/
theorem copyout_zero_iff (m : Memory) (dstva : Nat) (src : List Byte) :
    (copyout tables pagetable m dstva src).1 = 0 ↔
      ∀ va, Within dstva src.length va → Passes tables pagetable va := by
  induction m, dstva, src using copyout_rule tables pagetable with
  | nil m dstva =>
    rw [copyout_nil]
    constructor
    · rintro - va ⟨low, high⟩
      simp at high
      omega
    · intro _
      rfl
  | refused m dstva src more no =>
    rw [copyout_refused more no]
    constructor
    · intro zero
      cases zero
    · intro all
      have := List.length_pos_iff.mpr more
      exact absurd (all dstva ⟨le_rfl, by omega⟩) no
  | page m dstva src more pass ih =>
    rw [copyout_page more pass, ih]
    constructor
    · rintro rest va ⟨low, high⟩
      by_cases near : va < dstva + room dstva
      · obtain ⟨k, rfl⟩ := Nat.exists_eq_add_of_le low
        exact (passes_add (by omega)).mpr pass
      · exact rest va ⟨by omega, by rw [List.length_drop]; omega⟩
    · rintro all va ⟨low, high⟩
      rw [List.length_drop] at high
      exact all va ⟨by omega, by omega⟩

/-- A byte that is not as before is the target of an address that the loop reached. -/
theorem copyout_changed (m : Memory) (dstva : Nat) (src : List Byte) {a : Nat}
    (changed : (copyout tables pagetable m dstva src).2 a ≠ m a) :
    ∃ va, Reached tables pagetable dstva src.length va ∧ target tables pagetable va = a := by
  induction m, dstva, src using copyout_rule tables pagetable with
  | nil m dstva =>
    rw [copyout_nil] at changed
    exact absurd rfl changed
  | refused m dstva src more no =>
    rw [copyout_refused more no] at changed
    exact absurd rfl changed
  | page m dstva src more pass ih =>
    rw [copyout_page more pass] at changed
    by_cases stored : store m (target tables pagetable dstva) (src.take (room dstva)) a = m a
    · obtain ⟨va, reached, hit⟩ := ih (by rwa [stored])
      rw [List.length_drop] at reached
      exact ⟨va, (reached_rest pass reached.1.1).mp reached, hit⟩
    · have inside : target tables pagetable dstva ≤ a ∧
          a < target tables pagetable dstva + (src.take (room dstva)).length := by
        by_contra outside
        exact stored (store_outside (by omega))
      obtain ⟨k, rfl⟩ := Nat.exists_eq_add_of_le inside.1
      have short : k < room dstva ∧ k < src.length := by
        have := inside.2
        rw [List.length_take] at this
        omega
      refine ⟨dstva + k, ⟨⟨by omega, by omega⟩, ?_⟩, target_add short.1⟩
      intro va' low high
      obtain ⟨j, rfl⟩ := Nat.exists_eq_add_of_le low
      exact (passes_add (by omega)).mpr pass

theorem copyout_kept_or_copied (tables : Tables) (pagetable : Nat) (m : Memory) (dstva : Nat)
    (src : List Byte) (a : Nat) :
    (copyout tables pagetable m dstva src).2 a = m a ∨
      (copyout tables pagetable m dstva src).2 a ∈ src := by
  induction m, dstva, src using copyout_rule tables pagetable with
  | nil m dstva =>
    rw [copyout_nil]
    exact Or.inl rfl
  | refused m dstva src more no =>
    rw [copyout_refused more no]
    exact Or.inl rfl
  | page m dstva src more pass ih =>
    rw [copyout_page more pass]
    rcases ih with kept | copied
    · rw [kept]
      by_cases inside : target tables pagetable dstva ≤ a ∧
          a < target tables pagetable dstva + (src.take (room dstva)).length
      · obtain ⟨k, rfl⟩ := Nat.exists_eq_add_of_le inside.1
        rw [store_inside (show k < _ by omega)]
        exact Or.inr (List.mem_of_mem_take (List.getElem_mem _))
      · exact Or.inl (store_outside (by omega))
    · exact Or.inr (List.mem_of_mem_drop copied)

/-- The byte behind an address that the loop reached comes from the source. -/
theorem copyout_stored (tables : Tables) (pagetable : Nat) (m : Memory) (dstva : Nat)
    (src : List Byte) {va : Nat}
    (reached : Reached tables pagetable dstva src.length va) :
    (copyout tables pagetable m dstva src).2 (target tables pagetable va) ∈ src := by
  induction m, dstva, src using copyout_rule tables pagetable with
  | nil m dstva =>
    obtain ⟨⟨low, high⟩, -⟩ := reached
    simp at high
    omega
  | refused m dstva src more no =>
    exact absurd (reached.2 dstva le_rfl reached.1.1) no
  | page m dstva src more pass ih =>
    rw [copyout_page more pass]
    by_cases near : va < dstva + room dstva
    · obtain ⟨k, rfl⟩ := Nat.exists_eq_add_of_le reached.1.1
      have short : k < (src.take (room dstva)).length := by
        have := reached.1.2
        rw [List.length_take]
        omega
      rcases copyout_kept_or_copied tables pagetable
        (store m (target tables pagetable dstva) (src.take (room dstva))) (dstva + room dstva)
        (src.drop (room dstva)) (target tables pagetable (dstva + k)) with kept | copied
      · rw [kept, target_add (by omega), store_inside short]
        exact List.mem_of_mem_take (List.getElem_mem _)
      · exact List.mem_of_mem_drop copied
    · apply List.mem_of_mem_drop
      apply ih
      rw [List.length_drop]
      exact (reached_rest pass (by omega)).mpr reached

instance (tables : Tables) (pagetable va : Nat) : Decidable (Passes tables pagetable va) :=
  inferInstanceAs (Decidable (_ ≠ _))

/-- How many of `len` bytes a copy reaches before it meets a page that `walkaddr` refuses. -/
def reach (tables : Tables) (pagetable dstva : Nat) : Nat → Nat
  | 0 => 0
  | len + 1 =>
    if Passes tables pagetable dstva then 1 + reach tables pagetable (dstva + 1) len else 0

theorem lt_reach {dstva len k : Nat} :
    k < reach tables pagetable dstva len ↔
      k < len ∧ ∀ j ≤ k, Passes tables pagetable (dstva + j) := by
  induction len generalizing dstva k with
  | zero => simp [reach]
  | succ len ih =>
    rw [reach]
    split
    · rename_i pass
      cases k with
      | zero => simpa using pass
      | succ k =>
        rw [Nat.add_comm 1, Nat.add_lt_add_iff_right, ih, Nat.add_lt_add_iff_right]
        refine and_congr_right fun _ => ⟨fun all j le => ?_, fun all j le => ?_⟩
        · cases j with
          | zero => exact pass
          | succ j =>
            rw [← Nat.add_assoc, Nat.add_right_comm]
            exact all j (Nat.le_of_succ_le_succ le)
        · rw [Nat.add_right_comm, Nat.add_assoc]
          exact all (j + 1) (Nat.succ_le_succ le)
    · rename_i refused
      refine iff_of_false (Nat.not_lt_zero k) fun ⟨_, all⟩ => refused (all 0 (Nat.zero_le k))

theorem reach_le (tables : Tables) (pagetable dstva len : Nat) :
    reach tables pagetable dstva len ≤ len := by
  by_contra long
  have := (lt_reach.mp (Nat.lt_of_not_le long)).1
  omega

/-- The first page is reached as a whole. -/
theorem reach_page (len : Nat) {dstva : Nat} (pass : Passes tables pagetable dstva) :
    reach tables pagetable dstva len =
      min (room dstva) len + reach tables pagetable (dstva + room dstva) (len - room dstva) := by
  refine eq_of_forall_lt_iff fun k => ?_
  rw [lt_reach]
  by_cases near : k < room dstva
  · have all : ∀ j ≤ k, Passes tables pagetable (dstva + j) :=
      fun j le => (passes_add (by omega)).mpr pass
    have rest := reach_le tables pagetable (dstva + room dstva)
      (len - room dstva)
    simp only [and_iff_left all]
    omega
  · obtain ⟨j, rfl⟩ := Nat.exists_eq_add_of_le (Nat.le_of_not_lt near)
    by_cases short : len ≤ room dstva
    · have rest := reach_le tables pagetable (dstva + room dstva)
        (len - room dstva)
      omega
    · rw [min_eq_left (by omega), Nat.add_lt_add_iff_left, lt_reach]
      refine and_congr (by omega) ⟨fun all i le => ?_, fun all i le => ?_⟩
      · rw [Nat.add_assoc]
        exact all _ (by omega)
      · by_cases first : i < room dstva
        · exact (passes_add first).mpr pass
        · obtain ⟨i', rfl⟩ := Nat.exists_eq_add_of_le (Nat.le_of_not_lt first)
          rw [← Nat.add_assoc]
          exact all i' (by omega)

/-- `copyout` does to the user's memory what copying the bytes within reach does, which
succeeds. -/
theorem copyout_reach (m : Memory) (dstva : Nat) (src : List Byte) :
    copyout tables pagetable m dstva (src.take (reach tables pagetable dstva src.length)) =
      (0, (copyout tables pagetable m dstva src).2) := by
  induction m, dstva, src using copyout_rule tables pagetable with
  | nil m dstva => rw [List.take_nil, copyout_nil]
  | refused m dstva src more no =>
    have none : reach tables pagetable dstva src.length = 0 := by
      by_contra some
      exact no ((lt_reach.mp (Nat.pos_of_ne_zero some)).2 0 le_rfl)
    rw [none, List.take_zero, copyout_nil, copyout_refused more no]
  | page m dstva src more pass ih =>
    have positive := List.length_pos_iff.mpr more
    have size := room_pos dstva
    have split := reach_page src.length pass
    set far := reach tables pagetable dstva src.length with hfar
    have some : src.take far ≠ [] := by
      rw [← List.length_pos_iff, List.length_take]
      omega
    rw [copyout_page some pass, copyout_page more pass, List.take_take, List.drop_take]
    rw [List.length_drop] at ih
    by_cases short : src.length ≤ room dstva
    · have all : far = src.length := by
        have := reach_le tables pagetable dstva src.length
        omega
      have none : src.drop (room dstva) = [] := List.drop_eq_nil_of_le short
      have same : src.take (min (room dstva) far) = src.take (room dstva) := by
        rw [List.take_of_length_le (by omega), List.take_of_length_le short]
      rw [none, List.take_nil, copyout_nil, copyout_nil, same]
    · have rest : far - room dstva =
          reach tables pagetable (dstva + room dstva) (src.length - room dstva) := by omega
      rw [rest, min_eq_left (by omega)]
      exact ih

/-- `copyin` copies the bytes within reach, and fails if there are more to copy. -/
theorem copyin_reach (m buf : Memory) (dst srcva len : Nat) :
    copyin tables pagetable m buf dst srcva len =
      (if reach tables pagetable srcva len = len then 0 else -1,
        store buf dst ((List.range (reach tables pagetable srcva len)).map
          fun j => m (target tables pagetable (srcva + j)))) := by
  induction len using Nat.strongRecOn generalizing buf dst srcva with
  | ind len ih =>
    rw [copyin]
    by_cases none : len = 0
    · subst none
      simp [reach, store_nil]
    · rw [dif_neg none]
      by_cases pass : Passes tables pagetable srcva
      · have size := room_pos srcva
        have rest := ih (len - min (room srcva) len) (by omega)
        simp only [if_neg (show ¬ walkaddr tables pagetable (PGROUNDDOWN srcva) = 0 from pass)]
        rw [dstva_sub_round, rest, reach_page len pass]
        have near : load m (target tables pagetable srcva) (min (room srcva) len) =
            (List.range (min (room srcva) len)).map
              fun j => m (target tables pagetable (srcva + j)) := by
          refine List.map_congr_left fun j below => ?_
          have below := List.mem_range.mp below
          rw [target_add (by omega)]
        change (_, store (store buf dst (load m (target tables pagetable srcva) _)) _ _) = _
        rw [near]
        have length : ((List.range (min (room srcva) len)).map
            fun j => m (target tables pagetable (srcva + j))).length = min (room srcva) len := by
          simp
        have next := store_append buf dst ((List.range (min (room srcva) len)).map
          fun j => m (target tables pagetable (srcva + j)))
        rw [length] at next
        rw [next, List.range_add, List.map_append, List.map_map, next_page]
        by_cases short : len ≤ room srcva
        · have none : len - room srcva = 0 := by omega
          simp [min_eq_right short, none, reach]
        · have cut : min (room srcva) len = room srcva := by omega
          rw [cut]
          simp only [Function.comp_def, Nat.add_assoc]
          congr 2
          exact propext (by omega)
      · have refused : reach tables pagetable srcva len = 0 := by
          by_contra some
          exact pass ((lt_reach.mp (Nat.pos_of_ne_zero some)).2 0 le_rfl)
        have zero : walkaddr tables pagetable (PGROUNDDOWN srcva) = 0 := not_not.mp pass
        simp only [zero, if_true, refused, List.range_zero, List.map_nil, store_nil]
        rw [if_neg (Ne.symm none)]

/-- Copies of `len` bytes to `dstva`, of any bytes into any memory, change only pages that the
process may write and fail if the range has another page. -/
def Respects (tables : Tables) (pagetable dstva len : Nat) : Prop :=
  ∀ (m : Memory) (src : List Byte), src.length = len →
    (∀ a, (copyout tables pagetable m dstva src).2 a ≠ m a → Writable tables pagetable a) ∧
    ((∃ va, Within dstva len va ∧ ¬ MayWrite tables pagetable va) →
      (copyout tables pagetable m dstva src).1 = -1)

/-- Where the test lets the whole range through, the process may write all of it; where it refuses
an address, what the loop reaches before is mapped for writing. -/
def Covered (tables : Tables) (pagetable dstva len : Nat) : Prop :=
  ((∀ va, Within dstva len va → Passes tables pagetable va) →
    ∀ va, Within dstva len va → MayWrite tables pagetable va) ∧
  ((∃ va, Within dstva len va ∧ ¬ Passes tables pagetable va) →
    ∀ va, Reached tables pagetable dstva len va →
      Writable tables pagetable (target tables pagetable va))

theorem entry_of_passes {va : Nat} (pass : Passes tables pagetable va) :
    ∃ pte, entry tables pagetable va = some pte ∧
      walkaddr tables pagetable (PGROUNDDOWN va) = PTE2PA pte := by
  unfold Passes walkaddr at pass
  unfold entry walkaddr
  split at pass
  · rename_i low
    rw [dif_pos low, dif_pos low]
    cases found : walk tables pagetable ⟨PGROUNDDOWN va, low⟩ with
    | none => simp [found] at pass
    | some pte =>
      refine ⟨pte, rfl, ?_⟩
      simp only [found] at pass ⊢
      split at pass
      · exact absurd rfl pass
      · rename_i valid
        rw [if_neg valid]
        split at pass
        · exact absurd rfl pass
        · rename_i user
          rw [if_neg user]
  · exact absurd rfl pass

theorem target_writable {va : Nat} (pass : Passes tables pagetable va)
    (may : MayWrite tables pagetable va) :
    Writable tables pagetable (target tables pagetable va) := by
  obtain ⟨pte, mapped, address⟩ := entry_of_passes pass
  obtain ⟨pte', mapped', valid, user, write⟩ := may
  obtain rfl : pte = pte' := Option.some.inj (mapped.symm.trans mapped')
  have : va % PGSIZE < PGSIZE := Nat.mod_lt _ (by decide)
  refine ⟨va, pte, mapped, valid, user, write, ?_, ?_⟩
  · rw [target, address]
    omega
  · rw [target, address]
    omega

/-- `copyout` honours the write permissions of a range exactly where the entries make up for the
test it lacks. -/
theorem copyout_respects_iff (tables : Tables) (pagetable dstva len : Nat) :
    Respects tables pagetable dstva len ↔ Covered tables pagetable dstva len := by
  constructor
  · intro respects
    constructor
    · intro all va within
      by_contra no
      obtain ⟨-, fails⟩ := respects (fun _ => 0) (List.replicate len 0) List.length_replicate
      have success :
          (copyout tables pagetable (fun _ => 0) dstva (List.replicate len 0)).1 = 0 := by
        rw [copyout_zero_iff, List.length_replicate]
        exact all
      have failure := fails ⟨va, within, no⟩
      rw [success] at failure
      cases failure
    · rintro - va reached
      -- ones over zeroes, so that every store shows
      obtain ⟨changes, -⟩ := respects (fun _ => 0) (List.replicate len 1) List.length_replicate
      apply changes
      have one := copyout_stored tables pagetable (fun _ => 0) dstva
        (List.replicate len 1) (by rwa [List.length_replicate])
      rw [List.eq_of_mem_replicate one]
      decide
  · rintro ⟨whole, part⟩ m src rfl
    constructor
    · intro a changed
      obtain ⟨va, reached, rfl⟩ := copyout_changed m dstva src changed
      by_cases refused : ∃ va, Within dstva src.length va ∧ ¬ Passes tables pagetable va
      · exact part refused va reached
      · have all : ∀ va, Within dstva src.length va → Passes tables pagetable va := by
          intro va within
          by_contra no
          exact refused ⟨va, within, no⟩
        exact target_writable (all va reached.1) (whole all va reached.1)
    · rintro ⟨va, within, no⟩
      rcases copyout_result tables pagetable m dstva src
        with success | failure
      · exact absurd (whole ((copyout_zero_iff m dstva src).mp success) va within) no
      · exact failure

end

theorem and_bit_ne_zero {w : Nat} (x : BitVec w) {k : Nat} (hk : k < w) :
    x &&& BitVec.twoPow w k ≠ 0#w ↔ x.getLsbD k = true := by
  rw [BitVec.and_twoPow]
  split
  · rename_i set
    have nonzero : BitVec.twoPow w k ≠ 0#w := by
      intro zero
      have bit := congrArg (fun y => y.getLsbD k) zero
      simp [hk] at bit
    exact ⟨fun _ => set, fun _ => nonzero⟩
  · rename_i clear
    exact ⟨fun no => absurd rfl no, fun set => absurd set clear⟩

/-- The entry that `uvmalloc` makes for a page of a loaded segment has `PTE_W` exactly if the
header asks for it. -/
theorem entry_writable_iff (pa : Nat) (flags : BitVec 32) :
    uvmalloc.entry pa (flags2perm flags) &&& PTE_W ≠ 0 ↔ flags &&& 2 ≠ 0 := by
  have address : (PA2PTE pa).getLsbD 2 = false := by simp [PA2PTE]
  have perm : (flags2perm flags).getLsbD 2 = true ↔ flags &&& 2 ≠ 0 := by
    simp only [flags2perm]
    by_cases write : flags &&& 2 ≠ 0
    · rw [if_pos write]
      refine ⟨fun _ => write, fun _ => ?_⟩
      split
      · decide
      · decide
    · rw [if_neg write]
      refine ⟨fun set => ?_, fun asked => absurd asked write⟩
      split at set
      · exact absurd set (by decide)
      · exact absurd set (by decide)
  have bits := and_bit_ne_zero (uvmalloc.entry pa (flags2perm flags)) (show 2 < 64 by decide)
  refine Iff.trans bits (Iff.trans ?_ perm)
  have R : PTE_R.getLsbD 2 = false := by decide
  have U : PTE_U.getLsbD 2 = false := by decide
  have V : PTE_V.getLsbD 2 = false := by decide
  simp only [uvmalloc.entry, BitVec.getLsbD_or, address, R, U, V, Bool.false_or, Bool.or_false]

/-- One page of text at address 0, read and executed. -/
def text : Tables := fun pagetable i =>
  if i ≠ 0 then 0
  else if pagetable = 0x1000 then PA2PTE 0x2000 ||| PTE_V
  else if pagetable = 0x2000 then PA2PTE 0x3000 ||| PTE_V
  else uvmalloc.entry 0x80000000 (flags2perm 5)

/-- A copy over the first byte of the text succeeds. -/
theorem text_overwritten : ¬ Respects text 0x1000 0 1 := by
  intro respects
  have pass : Passes text 0x1000 0 := by
    unfold Passes
    decide
  have readOnly : ¬ MayWrite text 0x1000 0 := by
    rintro ⟨pte, mapped, -, -, write⟩
    have entered : entry text 0x1000 0 = some (uvmalloc.entry 0x80000000 (flags2perm 5)) := by
      decide
    obtain rfl := Option.some.inj (entered.symm.trans mapped)
    exact absurd ((entry_writable_iff _ 5).mp write) (by decide)
  have fails := (respects (fun _ => 0) [1] rfl).2 ⟨0, by simp [Within], readOnly⟩
  have success : (copyout text 0x1000 (fun _ => 0) 0 [1]).1 = 0 := by
    rw [copyout_zero_iff]
    rintro va ⟨-, high⟩
    obtain rfl : va = 0 := by simpa using high
    exact pass
  rw [success] at fails
  cases fails

end UserCopies
