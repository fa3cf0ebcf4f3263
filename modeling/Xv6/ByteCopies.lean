import Xv6.UserCopies

/-!
# Copies byte by byte

`copyin`, `copyout` and `copyinstr` go page by page, with an unaligned start and a
last page that is cut. Copying one byte after the other through `walkaddr` is what
they mean: it meets the same pages, stops where they stop and leaves the same bytes.
-/

namespace ByteCopies

open ByteMemory UserCopies

/-- The inner loop of `copyinstr` over `n` bytes from the physical address `p` on: whether it got
a NUL, the buffer, and the variables `dst` and `max`. -/
def instrLoop (m : Memory) : Nat → Memory → Nat → Nat → Nat → Bool × Memory × Nat × Nat
  | 0, buf, dst, _, max => (false, buf, dst, max)
  | n + 1, buf, dst, p, max =>
    if m p = 0 then (true, store buf dst [0], dst, max)
    else instrLoop m n (store buf dst [m p]) (dst + 1) (p + 1) (max - 1)

theorem instrLoop_max {m : Memory} {n : Nat} {buf buf' : Memory} {dst dst' p max max' : Nat}
    (h : instrLoop m n buf dst p max = (false, buf', dst', max')) :
    dst' = dst + n ∧ max' = max - n := by
  induction n generalizing buf dst p max with
  | zero =>
    simp only [instrLoop, Prod.mk.injEq, true_and] at h
    exact ⟨h.2.1.symm, h.2.2.symm⟩
  | succ n ih =>
    rw [instrLoop] at h
    split at h
    · cases h
    · obtain ⟨rfl, rfl⟩ := ih h
      exact ⟨by omega, by omega⟩

/-- A string of the user from `srcva` on goes to `buf` from `dst` on. -/
def copyinstr (tables : Tables) (pagetable : Nat) (m buf : Memory) (dst srcva max : Nat) :
    Int × Memory :=
  if _done : max = 0 then (-1, buf)
  else
    let va0 := PGROUNDDOWN srcva
    let pa0 := walkaddr tables pagetable va0
    if pa0 = 0 then (-1, buf)
    else
      match _page : instrLoop m (min (room srcva) max) buf dst (pa0 + (srcva - va0)) max with
      | (true, buf, _, _) => (0, buf)
      | (false, buf, dst, max) => copyinstr tables pagetable m buf dst (va0 + PGSIZE) max
termination_by max
decreasing_by
  have := room_pos srcva
  have := (instrLoop_max _page).2
  omega

section

variable (tables : Tables) (pagetable : Nat)

/-- `walkaddr` for every byte. -/
def copyoutBytes (m : Memory) (dstva : Nat) : List Byte → Int × Memory
  | [] => (0, m)
  | b :: src =>
    let pa := walkaddr tables pagetable (PGROUNDDOWN dstva)
    if pa = 0 then (-1, m)
    else copyoutBytes (store m (pa + dstva % PGSIZE) [b]) (dstva + 1) src

def copyinBytes (m buf : Memory) (dst srcva : Nat) : Nat → Int × Memory
  | 0 => (0, buf)
  | len + 1 =>
    let pa := walkaddr tables pagetable (PGROUNDDOWN srcva)
    if pa = 0 then (-1, buf)
    else copyinBytes m (store buf dst [m (pa + srcva % PGSIZE)]) (dst + 1) (srcva + 1) len

def copyinstrBytes (m buf : Memory) (dst srcva : Nat) : Nat → Int × Memory
  | 0 => (-1, buf)
  | max + 1 =>
    let pa := walkaddr tables pagetable (PGROUNDDOWN srcva)
    if pa = 0 then (-1, buf)
    else
      let c := m (pa + srcva % PGSIZE)
      if c = 0 then (0, store buf dst [0])
      else copyinstrBytes m (store buf dst [c]) (dst + 1) (srcva + 1) max

end

variable {tables : Tables} {pagetable : Nat}

theorem copyoutBytes_refused {m : Memory} {dstva : Nat} {src : List Byte} (more : src ≠ [])
    (no : ¬ Passes tables pagetable dstva) :
    copyoutBytes tables pagetable m dstva src = (-1, m) := by
  obtain ⟨b, rest, rfl⟩ := List.exists_cons_of_ne_nil more
  rw [copyoutBytes]
  exact if_pos (not_not.mp no)

theorem copyoutBytes_cons (m : Memory) (dstva : Nat) (b : Byte) (src : List Byte)
    (pass : Passes tables pagetable dstva) :
    copyoutBytes tables pagetable m dstva (b :: src) =
      copyoutBytes tables pagetable (store m (target tables pagetable dstva) [b]) (dstva + 1)
        src := by
  rw [copyoutBytes]
  exact if_neg pass

/-- The bytes that fall in one page go to one place. -/
theorem copyoutBytes_page (m : Memory) (dstva : Nat) (bytes src : List Byte)
    (pass : Passes tables pagetable dstva) (short : bytes.length ≤ room dstva) :
    copyoutBytes tables pagetable m dstva (bytes ++ src) =
      copyoutBytes tables pagetable (store m (target tables pagetable dstva) bytes)
        (dstva + bytes.length) src := by
  have all (k : Nat) (below : k < bytes.length) : Passes tables pagetable (dstva + k) ∧
      target tables pagetable (dstva + k) = target tables pagetable dstva + k :=
    ⟨(passes_add (by omega)).mpr pass, target_add (by omega)⟩
  clear short pass
  generalize target tables pagetable dstva = a at all
  induction bytes generalizing m dstva a with
  | nil => rw [store_nil, List.nil_append, List.length_nil, Nat.add_zero]
  | cons b bytes ih =>
    have first := all 0 (Nat.succ_pos _)
    rw [Nat.add_zero, Nat.add_zero] at first
    obtain ⟨here, at_⟩ := first
    have rest (k : Nat) (below : k < bytes.length) :
        Passes tables pagetable (dstva + 1 + k) ∧
          target tables pagetable (dstva + 1 + k) = a + 1 + k := by
      have next := all (k + 1) (Nat.succ_lt_succ below)
      rwa [Nat.add_comm k, ← Nat.add_assoc, ← Nat.add_assoc] at next
    have both : store (store m a [b]) (a + 1) bytes = store m a (b :: bytes) :=
      store_append m a [b] bytes
    rw [List.cons_append, copyoutBytes_cons _ _ _ _ here]
    rw [at_, ih _ _ _ rest, both, List.length_cons, Nat.add_assoc, Nat.add_comm 1]

theorem copyout_bytes (m : Memory) (dstva : Nat) (src : List Byte) :
    copyout tables pagetable m dstva src = copyoutBytes tables pagetable m dstva src := by
  induction m, dstva, src using copyout_rule tables pagetable with
  | nil m dstva => rw [copyout_nil, copyoutBytes]
  | refused m dstva src more no => rw [copyout_refused more no, copyoutBytes_refused more no]
  | page m dstva src more pass ih =>
    rw [copyout_page more pass, ih]
    have whole := copyoutBytes_page m dstva (src.take (room dstva)) (src.drop (room dstva)) pass
      (List.length_take_le _ _)
    rw [List.take_append_drop] at whole
    rw [whole]
    by_cases short : src.length ≤ room dstva
    · rw [List.drop_eq_nil_of_le short, copyoutBytes, copyoutBytes]
    · rw [List.length_take, min_eq_left (by omega)]

/-- What `copyinBytes` copies are the bytes within reach. -/
theorem copyinBytes_reach (m buf : Memory) (dst srcva len : Nat) :
    copyinBytes tables pagetable m buf dst srcva len =
      (if reach tables pagetable srcva len = len then 0 else -1,
        store buf dst ((List.range (reach tables pagetable srcva len)).map
          fun j => m (target tables pagetable (srcva + j)))) := by
  induction len generalizing buf dst srcva with
  | zero => simp [copyinBytes, reach, store_nil]
  | succ len ih =>
    rw [copyinBytes, reach]
    by_cases pass : Passes tables pagetable srcva
    · simp only [if_neg (show ¬ walkaddr tables pagetable (PGROUNDDOWN srcva) = 0 from pass)]
      rw [ih, if_pos pass, Nat.add_comm 1, List.range_succ_eq_map, List.map_cons, List.map_map]
      have next := store_append buf dst [m (target tables pagetable srcva)]
        ((List.range (reach tables pagetable (srcva + 1) len)).map
          fun j => m (target tables pagetable (srcva + 1 + j)))
      rw [List.length_singleton] at next
      change (_, store (store buf dst [m (target tables pagetable srcva)]) _ _) = _
      rw [next]
      simp only [Nat.add_left_inj, List.singleton_append, Nat.add_zero, Function.comp_def,
        Nat.succ_eq_add_one, Nat.add_assoc, Nat.add_comm 1]
    · have zero : walkaddr tables pagetable (PGROUNDDOWN srcva) = 0 := not_not.mp pass
      simp only [zero, if_true, if_neg pass, List.range_zero, List.map_nil, store_nil]
      rw [if_neg (Nat.succ_ne_zero len).symm]

theorem copyin_bytes (m buf : Memory) (dst srcva len : Nat) :
    copyin tables pagetable m buf dst srcva len =
      copyinBytes tables pagetable m buf dst srcva len := by
  rw [copyin_reach, copyinBytes_reach]

theorem copyinstrBytes_pass (m buf : Memory) (dst srcva max : Nat)
    (pass : Passes tables pagetable srcva) :
    copyinstrBytes tables pagetable m buf dst srcva (max + 1) =
      if m (target tables pagetable srcva) = 0 then (0, store buf dst [0])
      else copyinstrBytes tables pagetable m (store buf dst [m (target tables pagetable srcva)])
        (dst + 1) (srcva + 1) max := by
  rw [copyinstrBytes]
  exact if_neg pass

/-- `a` is the physical byte behind the first of the `n` addresses. -/
def InPage (tables : Tables) (pagetable srcva a n : Nat) : Prop :=
  ∀ k < n, Passes tables pagetable (srcva + k) ∧ target tables pagetable (srcva + k) = a + k

theorem InPage.first {srcva a n : Nat} (page : InPage tables pagetable srcva a (n + 1)) :
    Passes tables pagetable srcva ∧ target tables pagetable srcva = a := by
  have here := page 0 (Nat.succ_pos n)
  rwa [Nat.add_zero, Nat.add_zero] at here

theorem InPage.rest {srcva a n : Nat} (page : InPage tables pagetable srcva a (n + 1)) :
    InPage tables pagetable (srcva + 1) (a + 1) n := by
  intro k below
  have next := page (k + 1) (Nat.succ_lt_succ below)
  rwa [Nat.add_comm k, ← Nat.add_assoc, ← Nat.add_assoc] at next

theorem inPage_room {srcva n : Nat} (pass : Passes tables pagetable srcva)
    (short : n ≤ room srcva) :
    InPage tables pagetable srcva (target tables pagetable srcva) n :=
  fun _ below => ⟨(passes_add (below.trans_le short)).mpr pass, target_add (below.trans_le short)⟩

/-- The inner loop finds the NUL that the copy of single bytes finds. -/
theorem instrLoop_found {m buf buf' : Memory} {n dst srcva a max : Nat} {r : Nat × Nat}
    (page : InPage tables pagetable srcva a n) (le : n ≤ max)
    (found : instrLoop m n buf dst a max = (true, buf', r)) :
    copyinstrBytes tables pagetable m buf dst srcva max = (0, buf') := by
  induction n generalizing buf dst srcva a max with
  | zero => cases found
  | succ n ih =>
    obtain ⟨pass, at_⟩ := page.first
    obtain ⟨max, rfl⟩ : ∃ k, max = k + 1 := ⟨max - 1, by omega⟩
    rw [instrLoop, Nat.add_sub_cancel] at found
    rw [copyinstrBytes_pass _ _ _ _ _ pass, at_]
    split at found
    · rename_i zero
      cases found
      rw [if_pos zero]
    · rename_i other
      rw [if_neg other]
      exact ih page.rest (Nat.le_of_succ_le_succ le) found

theorem instrLoop_passed {m buf buf' : Memory} {n dst dst' srcva a max max' : Nat}
    (page : InPage tables pagetable srcva a n) (le : n ≤ max)
    (passed : instrLoop m n buf dst a max = (false, buf', dst', max')) :
    copyinstrBytes tables pagetable m buf dst srcva max =
      copyinstrBytes tables pagetable m buf' dst' (srcva + n) max' := by
  induction n generalizing buf dst srcva a max with
  | zero =>
    obtain ⟨-, rfl, rfl, rfl⟩ := by simpa only [instrLoop, Prod.mk.injEq] using passed
    rfl
  | succ n ih =>
    obtain ⟨pass, at_⟩ := page.first
    obtain ⟨max, rfl⟩ : ∃ k, max = k + 1 := ⟨max - 1, by omega⟩
    rw [instrLoop, Nat.add_sub_cancel] at passed
    rw [copyinstrBytes_pass _ _ _ _ _ pass, at_]
    split at passed
    · cases passed
    · rename_i other
      rw [if_neg other, ih page.rest (Nat.le_of_succ_le_succ le) passed, Nat.add_assoc,
        Nat.add_comm 1]

theorem copyinstr_bytes (m buf : Memory) (dst srcva max : Nat) :
    copyinstr tables pagetable m buf dst srcva max =
      copyinstrBytes tables pagetable m buf dst srcva max := by
  induction max using Nat.strongRecOn generalizing buf dst srcva with
  | ind max ih =>
    rw [copyinstr]
    split
    · rename_i none
      rw [none, copyinstrBytes]
    · rename_i more
      by_cases pass : Passes tables pagetable srcva
      · have page := inPage_room pass (min_le_left (room srcva) max)
        simp only [if_neg (show ¬ walkaddr tables pagetable (PGROUNDDOWN srcva) = 0 from pass)]
        rw [dstva_sub_round]
        split
        · rename_i found
          exact (instrLoop_found page (min_le_right _ _) found).symm
        · rename_i buf' dst' max' passed
          have left := (instrLoop_max passed).2
          have size := room_pos srcva
          rw [instrLoop_passed page (min_le_right _ _) passed, ih max' (by omega), next_page]
          by_cases short : max ≤ room srcva
          · have none : max' = 0 := by omega
            rw [none, copyinstrBytes, copyinstrBytes]
          · rw [min_eq_left (by omega)]
      · have zero : walkaddr tables pagetable (PGROUNDDOWN srcva) = 0 := not_not.mp pass
        obtain ⟨max, rfl⟩ : ∃ k, max = k + 1 := ⟨max - 1, by omega⟩
        simp only [zero, if_true, copyinstrBytes]

/-- The bytes of the user from an address on. -/
def userBytes (tables : Tables) (pagetable : Nat) (m : Memory) (srcva len : Nat) : List Byte :=
  (List.range len).map fun j => m (target tables pagetable (srcva + j))

theorem userBytes_succ (m : Memory) (srcva len : Nat) :
    userBytes tables pagetable m srcva (len + 1) =
      m (target tables pagetable srcva) :: userBytes tables pagetable m (srcva + 1) len := by
  simp only [userBytes, List.range_succ_eq_map, List.map_cons, List.map_map, Nat.add_zero,
    Function.comp_def, Nat.succ_eq_add_one, Nat.add_assoc, Nat.add_comm 1]

/-- There is a NUL at `j`, none before, and a copy gets there. -/
def EndsAt (tables : Tables) (pagetable : Nat) (m : Memory) (srcva j : Nat) : Prop :=
  (∀ i ≤ j, Passes tables pagetable (srcva + i)) ∧ m (target tables pagetable (srcva + j)) = 0 ∧
    ∀ i < j, m (target tables pagetable (srcva + i)) ≠ 0

theorem EndsAt.succ {m : Memory} {srcva j : Nat} :
    EndsAt tables pagetable m srcva (j + 1) ↔ Passes tables pagetable srcva ∧
      m (target tables pagetable srcva) ≠ 0 ∧ EndsAt tables pagetable m (srcva + 1) j := by
  simp only [EndsAt]
  constructor
  · rintro ⟨pass, zero, before⟩
    refine ⟨pass 0 (Nat.zero_le _), before 0 (Nat.succ_pos _), fun i le => ?_, ?_, fun i lt => ?_⟩
    · rw [Nat.add_assoc, Nat.add_comm 1]
      exact pass (i + 1) (Nat.succ_le_succ le)
    · rwa [Nat.add_assoc, Nat.add_comm 1]
    · rw [Nat.add_assoc, Nat.add_comm 1]
      exact before (i + 1) (Nat.succ_lt_succ lt)
  · rintro ⟨pass, first, passes, zero, before⟩
    refine ⟨fun i le => ?_, ?_, fun i lt => ?_⟩
    · cases i with
      | zero => exact pass
      | succ i =>
        rw [Nat.add_comm i, ← Nat.add_assoc]
        exact passes i (Nat.le_of_succ_le_succ le)
    · rwa [Nat.add_comm j, ← Nat.add_assoc]
    · cases i with
      | zero => exact first
      | succ i =>
        rw [Nat.add_comm i, ← Nat.add_assoc]
        exact before i (Nat.lt_of_succ_lt_succ lt)

/-- `copyinstrBytes` either ends at the first NUL or copies what is before it stops. -/
theorem copyinstrBytes_cases (m buf : Memory) (dst srcva max : Nat) :
    (∃ j < max, EndsAt tables pagetable m srcva j ∧
      copyinstrBytes tables pagetable m buf dst srcva max =
        (0, store buf dst (userBytes tables pagetable m srcva (j + 1)))) ∨
    (¬ ∃ j < max, EndsAt tables pagetable m srcva j) ∧ ∃ k ≤ max,
      copyinstrBytes tables pagetable m buf dst srcva max =
        (-1, store buf dst (userBytes tables pagetable m srcva k)) := by
  induction max generalizing buf dst srcva with
  | zero =>
    refine .inr ⟨?_, 0, le_rfl, ?_⟩
    · rintro ⟨j, below, -⟩
      exact Nat.not_lt_zero j below
    · rw [copyinstrBytes, userBytes, List.range_zero, List.map_nil, store_nil]
  | succ max ih =>
    by_cases pass : Passes tables pagetable srcva
    · rw [copyinstrBytes_pass _ _ _ _ _ pass]
      by_cases zero : m (target tables pagetable srcva) = 0
      · refine .inl ⟨0, Nat.succ_pos max, ⟨fun i le => ?_, zero, nofun⟩, ?_⟩
        · obtain rfl := Nat.le_zero.mp le
          exact pass
        · rw [if_pos zero, userBytes_succ, zero]
          rfl
      · rw [if_neg zero]
        have joined (k : Nat) :
            store (store buf dst [m (target tables pagetable srcva)]) (dst + 1)
              (userBytes tables pagetable m (srcva + 1) k) =
            store buf dst (userBytes tables pagetable m srcva (k + 1)) := by
          rw [userBytes_succ]
          exact store_append buf dst [m (target tables pagetable srcva)] _
        rcases ih (store buf dst [m (target tables pagetable srcva)]) (dst + 1) (srcva + 1) with
          ⟨j, below, ends, copied⟩ | ⟨none, k, le, copied⟩
        · refine .inl ⟨j + 1, Nat.succ_lt_succ below, EndsAt.succ.mpr ⟨pass, zero, ends⟩, ?_⟩
          rw [copied, joined]
        · refine .inr ⟨?_, k + 1, Nat.succ_le_succ le, ?_⟩
          · rintro ⟨j, below, ends⟩
            cases j with
            | zero => exact zero ends.2.1
            | succ j =>
              exact none ⟨j, Nat.lt_of_succ_lt_succ below, (EndsAt.succ.mp ends).2.2⟩
          · rw [copied, joined]
    · refine .inr ⟨?_, 0, Nat.zero_le _, ?_⟩
      · rintro ⟨j, -, ends⟩
        exact pass (ends.1 0 (Nat.zero_le j))
      · rw [copyinstrBytes, userBytes, List.range_zero, List.map_nil, store_nil]
        exact if_pos (not_not.mp pass)

/-- The address is below `MAXVA` in a page that an entry maps for the user. -/
def ValidUser (tables : Tables) (pagetable va : Nat) : Prop :=
  ∃ pte, entry tables pagetable va = some pte ∧ pte &&& PTE_V ≠ 0 ∧ pte &&& PTE_U ≠ 0

/-- No entry maps physical page 0. -/
def NoPageZero (tables : Tables) (pagetable : Nat) : Prop :=
  ∀ va pte, entry tables pagetable va = some pte → pte &&& PTE_V ≠ 0 → PTE2PA pte ≠ 0

theorem passes_iff (noZero : NoPageZero tables pagetable) (va : Nat) :
    Passes tables pagetable va ↔ ValidUser tables pagetable va := by
  unfold Passes ValidUser walkaddr
  by_cases low : PGROUNDDOWN va < MAXVA
  · have maps : entry tables pagetable va = walk tables pagetable ⟨PGROUNDDOWN va, low⟩ :=
      dif_pos low
    rw [dif_pos low, maps]
    cases found : walk tables pagetable ⟨PGROUNDDOWN va, low⟩ with
    | none => simp
    | some pte =>
      have away := noZero va pte (maps.trans found)
      simp only [Option.some.injEq, exists_eq_left']
      split
      · rename_i invalid
        simp [invalid]
      · rename_i valid
        split
        · rename_i kernel
          simp [kernel]
        · rename_i user
          exact iff_of_true (away valid) ⟨valid, user⟩
  · have maps : entry tables pagetable va = none := dif_neg low
    rw [dif_neg low, maps]
    simp

/-- Where a copy stops, a page ends. -/
theorem reach_boundary {srcva len : Nat} (less : reach tables pagetable srcva len < len) :
    reach tables pagetable srcva len = 0 ∨
      (srcva + reach tables pagetable srcva len) % PGSIZE = 0 := by
  set k := reach tables pagetable srcva len with hk
  rcases Nat.eq_zero_or_pos k with none | some
  · exact .inl none
  · right
    by_contra inside
    have passed (j : Nat) (below : j < k) : Passes tables pagetable (srcva + j) :=
      (lt_reach.mp (hk ▸ below)).2 j le_rfl
    have last := passed (k - 1) (by omega)
    have same : srcva + k = srcva + (k - 1) + 1 := by omega
    have room_ : 1 < room (srcva + (k - 1)) := by
      rw [room_eq]
      simp only [PGSIZE] at inside ⊢
      omega
    have here : Passes tables pagetable (srcva + k) := by
      rw [same]
      exact (passes_add room_).mpr last
    have more : k < k := by
      conv_rhs => rw [hk]
      refine lt_reach.mpr ⟨less, fun j le => ?_⟩
      rcases Nat.lt_or_eq_of_le le with below | rfl
      · exact passed j below
      · exact here
    exact Nat.lt_irrefl k more

theorem reach_eq_iff {srcva len : Nat} :
    reach tables pagetable srcva len = len ↔
      ∀ va, Within srcva len va → Passes tables pagetable va := by
  constructor
  · rintro all va ⟨low, high⟩
    obtain ⟨k, rfl⟩ := Nat.exists_eq_add_of_le low
    exact (lt_reach.mp (all.symm ▸ (by omega : k < len))).2 k le_rfl
  · intro all
    by_contra other
    have less := lt_of_le_of_ne (reach_le tables pagetable srcva len) other
    have more := lt_reach.mpr ⟨less, fun j le => all (srcva + j) ⟨by omega, by omega⟩⟩
    exact Nat.lt_irrefl _ more

/-- A copy of `len` bytes that stops after `k` of them stops at the end of a page. -/
def StopsAt (srcva len k : Nat) : Prop := k < len ∧ (k = 0 ∨ (srcva + k) % PGSIZE = 0)

theorem copyout_means (noZero : NoPageZero tables pagetable) (m : Memory) (dstva : Nat)
    (src : List Byte) :
    ((copyout tables pagetable m dstva src).1 = 0 ↔
      ∀ va, Within dstva src.length va → ValidUser tables pagetable va) ∧
    ((copyout tables pagetable m dstva src).1 ≠ 0 →
      (copyout tables pagetable m dstva src).1 = -1 ∧ ∃ k, StopsAt dstva src.length k ∧
        copyoutBytes tables pagetable m dstva (src.take k) =
          (0, (copyout tables pagetable m dstva src).2)) := by
  refine ⟨?_, fun fails => ?_⟩
  · rw [copyout_zero_iff]
    simp only [passes_iff noZero]
  · refine ⟨(copyout_result tables pagetable m dstva src).resolve_left fails, _, ?_,
      (copyout_bytes _ _ _).symm.trans (copyout_reach m dstva src)⟩
    have less : reach tables pagetable dstva src.length < src.length := by
      refine lt_of_le_of_ne (reach_le _ _ _ _) fun all => fails ?_
      exact (copyout_zero_iff _ _ _).mpr (reach_eq_iff.mp all)
    exact ⟨less, reach_boundary less⟩

theorem copyin_means (noZero : NoPageZero tables pagetable) (m buf : Memory)
    (dst srcva len : Nat) :
    ((∀ va, Within srcva len va → ValidUser tables pagetable va) ∧
      copyin tables pagetable m buf dst srcva len =
        (0, store buf dst (userBytes tables pagetable m srcva len))) ∨
    (¬ (∀ va, Within srcva len va → ValidUser tables pagetable va) ∧
      ∃ k, StopsAt srcva len k ∧ copyin tables pagetable m buf dst srcva len =
        (-1, store buf dst (userBytes tables pagetable m srcva k))) := by
  have valid : reach tables pagetable srcva len = len ↔
      ∀ va, Within srcva len va → Passes tables pagetable va := reach_eq_iff
  simp only [passes_iff noZero] at valid
  rw [← valid, copyin_reach]
  by_cases all : reach tables pagetable srcva len = len
  · refine .inl ⟨all, ?_⟩
    rw [if_pos all, all]
    rfl
  · have less := lt_of_le_of_ne (reach_le tables pagetable srcva len) all
    refine .inr ⟨all, _, ⟨less, reach_boundary less⟩, ?_⟩
    rw [if_neg all]
    rfl

theorem endsAt_valid (noZero : NoPageZero tables pagetable) {m : Memory} {srcva j : Nat} :
    EndsAt tables pagetable m srcva j ↔
      (∀ va, Within srcva (j + 1) va → ValidUser tables pagetable va) ∧
      m (target tables pagetable (srcva + j)) = 0 ∧
      ∀ i < j, m (target tables pagetable (srcva + i)) ≠ 0 := by
  refine and_congr ⟨fun pass va within => ?_, fun valid i le => ?_⟩ Iff.rfl
  · obtain ⟨low, high⟩ := within
    obtain ⟨i, rfl⟩ := Nat.exists_eq_add_of_le low
    exact (passes_iff noZero _).mp (pass i (by omega))
  · exact (passes_iff noZero _).mpr (valid _ ⟨Nat.le_add_right _ _, by omega⟩)

/-- Where there is a NUL, there is a first one. -/
theorem endsAt_first (noZero : NoPageZero tables pagetable) {m : Memory} {srcva j max : Nat}
    (below : j < max) (valid : ∀ va, Within srcva (j + 1) va → ValidUser tables pagetable va)
    (zero : m (target tables pagetable (srcva + j)) = 0) :
    ∃ j < max, EndsAt tables pagetable m srcva j := by
  have some : ∃ i, m (target tables pagetable (srcva + i)) = 0 := ⟨j, zero⟩
  have le : Nat.find some ≤ j := Nat.find_min' some zero
  refine ⟨Nat.find some, le.trans_lt below, (endsAt_valid noZero).mpr ⟨fun va within => ?_,
    Nat.find_spec some, fun i less => Nat.find_min some less⟩⟩
  exact valid va ⟨within.1, within.2.trans_le (by omega)⟩

/-- The three copies do what copies of single bytes through `walkaddr` do. `copyin` and
`copyout` succeed exactly on ranges of valid user pages, and stop at the end of a page
otherwise; `copyinstr` succeeds exactly if there is a NUL within reach among the first `max`
bytes, and copies what ends with it. -/
theorem copies_bytewise (noZero : NoPageZero tables pagetable) (m buf : Memory) :
    (∀ dstva src,
      copyout tables pagetable m dstva src = copyoutBytes tables pagetable m dstva src ∧
      ((copyout tables pagetable m dstva src).1 = 0 ↔
        ∀ va, Within dstva src.length va → ValidUser tables pagetable va) ∧
      ((copyout tables pagetable m dstva src).1 ≠ 0 →
        (copyout tables pagetable m dstva src).1 = -1 ∧ ∃ k, StopsAt dstva src.length k ∧
          copyoutBytes tables pagetable m dstva (src.take k) =
            (0, (copyout tables pagetable m dstva src).2))) ∧
    (∀ dst srcva len,
      copyin tables pagetable m buf dst srcva len =
        copyinBytes tables pagetable m buf dst srcva len ∧
      (((∀ va, Within srcva len va → ValidUser tables pagetable va) ∧
        copyin tables pagetable m buf dst srcva len =
          (0, store buf dst (userBytes tables pagetable m srcva len))) ∨
      (¬ (∀ va, Within srcva len va → ValidUser tables pagetable va) ∧
        ∃ k, StopsAt srcva len k ∧ copyin tables pagetable m buf dst srcva len =
          (-1, store buf dst (userBytes tables pagetable m srcva k))))) ∧
    ∀ dst srcva max,
      copyinstr tables pagetable m buf dst srcva max =
        copyinstrBytes tables pagetable m buf dst srcva max ∧
      ((∃ j < max, (∀ va, Within srcva (j + 1) va → ValidUser tables pagetable va) ∧
        m (target tables pagetable (srcva + j)) = 0 ∧
        (∀ i < j, m (target tables pagetable (srcva + i)) ≠ 0) ∧
        copyinstr tables pagetable m buf dst srcva max =
          (0, store buf dst (userBytes tables pagetable m srcva (j + 1)))) ∨
      (¬ (∃ j < max, (∀ va, Within srcva (j + 1) va → ValidUser tables pagetable va) ∧
        m (target tables pagetable (srcva + j)) = 0) ∧
        ∃ k ≤ max, copyinstr tables pagetable m buf dst srcva max =
          (-1, store buf dst (userBytes tables pagetable m srcva k)))) := by
  refine ⟨fun dstva src => ⟨copyout_bytes _ _ _, copyout_means noZero m dstva src⟩,
    fun dst srcva len => ⟨copyin_bytes _ _ _ _ _, copyin_means noZero m buf dst srcva len⟩,
    fun dst srcva max => ⟨copyinstr_bytes _ _ _ _ _, ?_⟩⟩
  rw [copyinstr_bytes]
  rcases copyinstrBytes_cases m buf dst srcva max with
    ⟨j, below, ends, copied⟩ | ⟨none, k, le, copied⟩
  · obtain ⟨valid, zero, before⟩ := (endsAt_valid noZero).mp ends
    exact .inl ⟨j, below, valid, zero, before, copied⟩
  · refine .inr ⟨?_, k, le, copied⟩
    rintro ⟨j, below, valid, zero⟩
    exact none (endsAt_first noZero below valid zero)

theorem walkFrom_entry {va level page : Nat} {pte : Pte}
    (found : walkFrom tables va level page = some pte) : ∃ p i, pte = tables p i := by
  induction level generalizing page with
  | zero =>
    simp only [walkFrom, Option.some.injEq] at found
    exact ⟨page, PX 0 va, found.symm⟩
  | succ level ih =>
    rw [walkFrom] at found
    split at found
    · exact ih found
    · cases found

theorem text_noPageZero : NoPageZero text 0x1000 := by
  intro va pte maps valid
  unfold entry at maps
  split at maps
  · obtain ⟨p, i, rfl⟩ := walkFrom_entry maps
    revert valid
    unfold text
    split_ifs <;> decide
  · cases maps

/-- `copyinstr` of the bytes of the text. -/
theorem copies_bytewise_text :
    NoPageZero text 0x1000 ∧
    copyinstr text 0x1000 (fun a => if a = 0x80000002 then 0 else 7) (fun _ => 1) 100 0 8 =
      copyinstrBytes text 0x1000 (fun a => if a = 0x80000002 then 0 else 7) (fun _ => 1) 100 0 8 :=
  ⟨text_noPageZero, ((copies_bytewise text_noPageZero _ _).2.2 100 0 8).1⟩

end ByteCopies
