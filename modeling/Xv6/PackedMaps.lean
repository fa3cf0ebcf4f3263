import Xv6.Lib.RadixTables
import Xv6.Lib.Outcomes
import Xv6.PackedTables

/-!
# Page tables are maps

A well-formed table is a tree of pages of its own. `walk` may hang an empty page into
it, which maps nothing, and an entry of a lowest page stands for one virtual page; so
`mappages` and `uvmunmap` change what the pages of their ranges are mapped to.
-/

namespace PackedMaps

open Function Outcomes PackedTables RadixTables
open UserCopies hiding entry walk

variable {s s' : Ram} {root page q va v : Nat} {is js : List (Fin 512)} {i k : Fin 512}
  {e perm : Pte}

/-- The page that a valid entry leads to. -/
def next (e : Pte) : Option Nat := if e &&& PTE_V ≠ 0 then some (PTE2PA e) else none

/-- What an entry of a lowest page maps to. -/
def maps (e : Pte) : Option (Nat × Pte) :=
  if e &&& PTE_V ≠ 0 then some (PTE2PA e, PTE_FLAGS e) else none

theorem valid_or (x : Pte) : (x ||| PTE_V) &&& PTE_V ≠ 0 := by
  intro zero
  have bit := congrArg (fun y : Pte => y.getLsbD 0) zero
  simp [PTE_V] at bit

theorem flags_high (perm : Pte) (fits : perm &&& 0x3FF = perm) {j : Nat} (high : 10 ≤ j) :
    perm.getLsbD j = false := by
  have mask : (0x3FF : Pte).getLsbD j = false := by
    have small : 1023 < 2 ^ j :=
      Nat.lt_of_lt_of_le (by decide : 1023 < 2 ^ 10) (Nat.pow_le_pow_right (by decide) high)
    change (BitVec.ofNat 64 1023).getLsbD j = false
    rw [BitVec.getLsbD_ofNat, Nat.testBit_lt_two_pow small, Bool.and_false]
  rw [← fits, BitVec.getLsbD_and, mask, Bool.and_false]

theorem V_high {j : Nat} (high : 1 ≤ j) : PTE_V.getLsbD j = false := by
  simp [PTE_V]
  omega

theorem PTE2PA_or (pa : Nat) (perm : Pte) (fits : perm &&& 0x3FF = perm) :
    PTE2PA (PA2PTE pa ||| perm ||| PTE_V) = PGROUNDDOWN (pa % 2 ^ 64) := by
  have same : (PA2PTE pa ||| perm ||| PTE_V) >>> 10 <<< 12 = BitVec.ofNat 64 pa >>> 12 <<< 12 := by
    refine BitVec.eq_of_getLsbD_eq fun j less => ?_
    simp only [PA2PTE, BitVec.getLsbD_shiftLeft, BitVec.getLsbD_ushiftRight, BitVec.getLsbD_or]
    by_cases low : j < 12
    · simp [low]
    · rw [flags_high perm fits (by omega), V_high (by omega), Bool.or_false, Bool.or_false]
      have one : 10 + (j - 12) < 64 := by omega
      have two : ¬ 10 + (j - 12) < 10 := by omega
      simp only [one, two, decide_true, decide_false, Bool.not_false, Bool.and_true,
        Bool.true_and]
      congr 2
      omega
  rw [PTE2PA, same, BitVec.toNat_shiftLeft, BitVec.toNat_ushiftRight, BitVec.toNat_ofNat,
    Nat.shiftLeft_eq, Nat.shiftRight_eq_div_pow, PGROUNDDOWN, PGSIZE]
  omega

theorem FLAGS_or (pa : Nat) (perm : Pte) (fits : perm &&& 0x3FF = perm) :
    PTE_FLAGS (PA2PTE pa ||| perm ||| PTE_V) = perm ||| PTE_V := by
  have address : PA2PTE pa &&& 0x3FF = 0 := by
    refine BitVec.eq_of_getLsbD_eq fun j less => ?_
    have zero : (0 : Pte).getLsbD j = false := BitVec.getLsbD_zero
    rw [BitVec.getLsbD_and, zero, PA2PTE, BitVec.getLsbD_shiftLeft]
    by_cases low : j < 10
    · simp [low]
    · rw [flags_high 0x3FF (by decide) (Nat.le_of_not_lt low), Bool.and_false]
  have valid : PTE_V &&& 0x3FF = PTE_V := by decide
  rw [PTE_FLAGS, BitVec.and_or_distrib_right, BitVec.and_or_distrib_right, address, fits, valid]
  simp

theorem next_page (aligned : page % PGSIZE = 0) (low : page < PHYSTOP) :
    next (PA2PTE page ||| PTE_V) = some page := by
  have same := PTE2PA_or page 0 (by decide)
  rw [show PA2PTE page ||| 0 ||| PTE_V = PA2PTE page ||| PTE_V by simp] at same
  rw [next, if_pos (valid_or _), same]
  simp only [PHYSTOP] at low
  rw [Nat.mod_eq_of_lt (by omega), PGROUNDDOWN, aligned, Nat.sub_zero]

/-- What `mappages` writes maps to the page of the address. -/
theorem maps_or (pa : Nat) (perm : Pte) (fits : perm &&& 0x3FF = perm) :
    maps (PA2PTE pa ||| perm ||| PTE_V) =
      some (PGROUNDDOWN (pa % 2 ^ 64), perm ||| PTE_V) := by
  rw [maps, if_pos (valid_or _), PTE2PA_or pa perm fits, FLAGS_or pa perm fits]

@[simp] theorem next_zero : next 0 = none := by decide

@[simp] theorem maps_zero : maps 0 = none := by decide

/-- The pages of the table are its own: no two entries lead to one, and none is free. -/
structure WellFormed (s : Ram) (root : Nat) : Prop where
  aligned : root % PGSIZE = 0
  distinct : Distinct next s.words root 2
  unused : ∀ page ∈ s.freelist, Unused next s.words root 2 page
  once : s.freelist.Nodup
  pages : ∀ page ∈ s.freelist, page % PGSIZE = 0 ∧ page < PHYSTOP

theorem empty_follow (zero : ∀ k, s.words root k = 0)
    (there : follow next s.words root is = some q) : is = [] ∧ root = q := by
  cases is with
  | nil => exact ⟨rfl, Option.some.inj there⟩
  | cons i is =>
    rw [follow, zero, next_zero] at there
    cases there

/-- A new table. -/
theorem WellFormed.of_empty (aligned : root % PGSIZE = 0) (zero : ∀ k, s.words root k = 0)
    (taken : root ∉ s.freelist) (once : s.freelist.Nodup)
    (pages : ∀ page ∈ s.freelist, page % PGSIZE = 0 ∧ page < PHYSTOP) : WellFormed s root := by
  refine ⟨aligned, fun is js q _ _ first second => ?_, fun page free is _ there => ?_, once, pages⟩
  · rw [(empty_follow zero first).1, (empty_follow zero second).1]
  · exact taken ((empty_follow zero there).2 ▸ free)

/-- What the entry at the end of a path maps to. -/
def lookup (s : Ram) (root : Nat) (is : List (Fin 512)) (i : Fin 512) : Option (Nat × Pte) :=
  (entry next s.words root is i).bind maps

/-- The tables on the way to the entry of an address. -/
def path (va : Nat) : List (Fin 512) := [index 2 va, index 1 va]

/-- The physical page and the flags that an address is mapped to. -/
def translate (s : Ram) (root va : Nat) : Option (Nat × Pte) := lookup s root (path va) (index 0 va)

/-- The indices of an address tell its page. -/
theorem path_inj {va va' : Nat} (low : va < MAXVA) (low' : va' < MAXVA) :
    path va' = path va ∧ index 0 va' = index 0 va ↔ va' / PGSIZE = va / PGSIZE := by
  simp only [path, index, List.cons.injEq, and_true, Fin.mk.injEq, PX, PGSIZE]
  simp only [MAXVA] at low low'
  constructor
  · rintro ⟨⟨two, one⟩, zero⟩
    omega
  · intro same
    refine ⟨⟨?_, ?_⟩, ?_⟩ <;> omega

/-- An entry of a lowest page is written. -/
theorem WellFormed.write (wf : WellFormed s root) (len : is.length = 2)
    (there : follow next s.words root is = some q) : WellFormed (s.write q k e) root :=
  ⟨wf.aligned, wf.distinct.write len there,
    fun page free => (wf.unused page free).write wf.distinct len there, wf.once, wf.pages⟩

theorem lookup_write (wf : WellFormed s root) (len : is.length = 2)
    (there : follow next s.words root is = some q) (short : js.length ≤ 2) (i : Fin 512) :
    lookup (s.write q k e) root js i =
      if js = is ∧ i = k then maps e else lookup s root js i := by
  have written : entry next (s.write q k e).words root js i =
      if js = is ∧ i = k then some e else entry next s.words root js i :=
    entry_write wf.distinct len there short
  rw [lookup, written]
  split <;> rfl

theorem translate_write (wf : WellFormed s root) (low : va < MAXVA)
    (there : follow next s.words root (path va) = some q) {va' : Nat} (low' : va' < MAXVA) :
    translate (s.write q (index 0 va) e) root va' =
      if va' / PGSIZE = va / PGSIZE then maps e else translate s root va' := by
  rw [translate, lookup_write wf rfl there (by rfl)]
  exact if_congr (path_inj low low') rfl rfl

/-- A page that is no table may change. -/
theorem WellFormed.memset (wf : WellFormed s root) (unused : Unused next s.words root 2 page)
    (word : Pte) : WellFormed (s.memset page word) root :=
  ⟨wf.aligned, wf.distinct.update unused, fun p free => (wf.unused p free).update unused, wf.once,
    wf.pages⟩

theorem lookup_memset (unused : Unused next s.words root 2 page) (word : Pte)
    (short : js.length ≤ 2) (i : Fin 512) :
    lookup (s.memset page word) root js i = lookup s root js i :=
  congrArg (Option.bind · maps) (entry_update unused short)

/-- The page that `kalloc` takes is no page of the table. -/
theorem kalloc_page (wf : WellFormed s root) (taken : kalloc s = (some page, s')) :
    s.freelist = page :: s'.freelist ∧ Unused next s.words root 2 page ∧
    (page % PGSIZE = 0 ∧ page < PHYSTOP) ∧
    ∀ q i e, ((s'.memset page 0).write q i e).words =
      RadixTables.write (update s.words page fun _ => 0) q i e := by
  unfold kalloc at taken
  split at taken
  · cases taken
  next p rest list =>
    obtain ⟨same, rfl⟩ := Prod.mk.inj taken
    obtain rfl := Option.some.inj same
    have mem : p ∈ s.freelist := by
      rw [list]
      exact List.mem_cons_self
    refine ⟨list, wf.unused p mem, wf.pages p mem, fun q i e => ?_⟩
    simp only [Ram.write, Ram.memset, update_idem]
    rfl

/-- `walk` hangs an empty page at an entry that was not valid. -/
theorem grow_spec (wf : WellFormed s root) (len : is.length < 2)
    (there : follow next s.words root is = some q) (none_ : next (s.words q i) = none)
    (taken : kalloc s = (some page, s')) :
    let t := (s'.memset page 0).write q i (PA2PTE page ||| PTE_V)
    WellFormed t root ∧ follow next t.words root (is ++ [i]) = some page ∧
      ∀ js k, js.length = 2 → lookup t root js k = lookup s root js k := by
  obtain ⟨list, unused, ⟨aligned, low⟩, words⟩ := kalloc_page wf taken
  have words := words q i (PA2PTE page ||| PTE_V)
  have once := wf.once
  rw [list, List.nodup_cons] at once
  have leads := next_page aligned low
  set W : Words := update s.words page fun _ => 0 with hW
  have distinct : Distinct next W root 2 := wf.distinct.update unused
  have unused' : Unused next W root 2 page := unused.update unused
  have there' : follow next W root is = some q := (follow_update unused len.le).trans there
  have other : q ≠ page := by
    rintro rfl
    exact unused is len.le there
  have none' : next (W q i) = none := by
    rw [hW, update_of_ne other]
    exact none_
  have empty (j : Fin 512) : next (W page j) = none := by
    rw [hW, update_self]
    exact next_zero
  refine ⟨⟨wf.aligned, ?_, fun p free => ?_, once.2, fun p free => ?_⟩, ?_, ?_⟩
  · rw [words]
    exact distinct.grow len there' none' empty unused' leads
  · have old : p ∈ s.freelist := by
      rw [list]
      exact List.mem_cons_of_mem _ free
    have ne : p ≠ page := fun same => once.1 (same ▸ free)
    rw [words]
    exact ((wf.unused p old).update unused).grow distinct len there' none' empty unused' leads ne
  · refine wf.pages p ?_
    rw [list]
    exact List.mem_cons_of_mem _ free
  · rw [words, follow_grow distinct len there' none' empty unused' leads, if_pos rfl]
    rw [List.length_append, List.length_singleton]
    exact len
  · intro js k full
    rw [lookup, words, entry_grow distinct len there' none' empty unused' leads full,
      entry_update unused full.le]
    split
    next new =>
      -- the entries of the new page map nothing, and before there was no page
      rw [Option.bind_some, hW, update_self, maps_zero, lookup, entry, new, follow_concat, there,
        Option.bind_some, none_]
      rfl
    next => rfl

/-- The indices that `walk` goes on with at a level. -/
def below (va : Nat) : Nat → List (Fin 512)
  | 0 => []
  | level + 1 => index (level + 1) va :: below va level

theorem kalloc_none (taken : kalloc s = (none, s')) : s' = s := by
  unfold kalloc at taken
  split at taken
  · exact (Prod.mk.inj taken).2.symm
  · cases taken

theorem stops_at (there : follow next s.words root is = some q)
    (none_ : next (s.words q i) = none) (rest : List (Fin 512)) :
    follow next s.words root (is ++ i :: rest) = none := by
  rw [follow_append, there, Option.bind_some, follow, none_]
  rfl

theorem walkLoop_spec {alloc : Bool} {level : Nat} {r : Option (Nat × Fin 512)}
    (wf : WellFormed s root) (len : is.length + level = 2)
    (there : follow next s.words root is = some q)
    (walked : walkLoop va alloc level q s = (r, s')) :
    WellFormed s' root ∧
    (∀ js k, js.length = 2 → lookup s' root js k = lookup s root js k) ∧
    (alloc = false → s' = s) ∧
    (r = none → follow next s.words root (is ++ below va level) = none) ∧
    ∀ p k, r = some (p, k) →
      k = index 0 va ∧ follow next s'.words root (is ++ below va level) = some p := by
  induction level generalizing s is q with
  | zero =>
    obtain ⟨rfl, rfl⟩ := Prod.mk.inj walked
    refine ⟨wf, fun _ _ _ => rfl, fun _ => rfl, fun none_ => ?_, fun p k same => ?_⟩
    · cases none_
    · obtain ⟨rfl, rfl⟩ := Prod.mk.inj (Option.some.inj same)
      rw [below, List.append_nil]
      exact ⟨rfl, there⟩
  | succ level ih =>
    set i := index (level + 1) va with hi
    have shift : is ++ below va (level + 1) = is ++ [i] ++ below va level := by
      rw [below, List.append_assoc, List.singleton_append]
    have longer : (is ++ [i]).length + level = 2 := by
      rw [List.length_append, List.length_singleton]
      omega
    simp only [walkLoop, ← hi] at walked
    split at walked
    next valid =>
      have next_ : follow next s.words root (is ++ [i]) = some (PTE2PA (s.words q i)) := by
        rw [follow_concat, there, Option.bind_some, next, if_pos valid]
      rw [shift]
      exact ih wf longer next_ walked
    next invalid =>
      have none_ : next (s.words q i) = none := if_neg invalid
      have gone : follow next s.words root (is ++ below va (level + 1)) = none :=
        stops_at there none_ _
      split at walked
      next =>
        obtain ⟨rfl, rfl⟩ := Prod.mk.inj walked
        exact ⟨wf, fun _ _ _ => rfl, fun _ => rfl, fun _ => gone, fun p k same => by cases same⟩
      next allocs =>
        split at walked
        next s₁ taken =>
          obtain ⟨rfl, rfl⟩ := Prod.mk.inj walked
          obtain rfl := kalloc_none taken
          exact ⟨wf, fun _ _ _ => rfl, fun _ => rfl, fun _ => gone, fun p k same => by cases same⟩
        next page s₁ taken =>
          obtain ⟨wf', next_, same⟩ := grow_spec wf (by omega) there none_ taken
          obtain ⟨wf'', same', -, -, ends⟩ := ih wf' longer next_ walked
          refine ⟨wf'', fun js k full => (same' js k full).trans (same js k full), fun no => ?_,
            fun _ => gone, ?_⟩
          · exact (allocs (by rw [no]; decide)).elim
          · rw [shift]
            exact ends

/-- The entry of an address and the tables that lead there; nothing is mapped or unmapped. -/
theorem walk_spec {alloc : Bool} {r : Option (Nat × Fin 512)} (wf : WellFormed s root)
    (walked : walk root va alloc s = .ok (r, s')) :
    va < MAXVA ∧ WellFormed s' root ∧
    (∀ va', translate s' root va' = translate s root va') ∧ (alloc = false → s' = s) ∧
    (r = none → translate s root va = none) ∧
    ∀ p k, r = some (p, k) → k = index 0 va ∧ follow next s'.words root (path va) = some p ∧
      translate s root va = maps (s'.words p k) := by
  unfold walk at walked
  split at walked
  · cases walked
  next low =>
    have start : follow next s.words root [] = some root := rfl
    obtain ⟨wf', same, still, gone, ends⟩ := walkLoop_spec wf rfl start (Except.ok.inj walked)
    have same' (va' : Nat) : translate s' root va' = translate s root va' := same _ _ rfl
    refine ⟨Nat.lt_of_not_le low, wf', same', still, fun none_ => ?_, fun p k some_ => ?_⟩
    · have gone : follow next s.words root (path va) = none := gone none_
      rw [translate, lookup, entry, gone]
      rfl
    · obtain ⟨rfl, there⟩ := ends p k some_
      have there : follow next s'.words root (path va) = some p := there
      refine ⟨rfl, there, ?_⟩
      rw [← same', translate, lookup, entry, there]
      rfl

/-- The page that the `i`th page of a range from `pa` on is. -/
def pageAt (pa i : Nat) : Nat := PGROUNDDOWN ((pa + i * PGSIZE) % 2 ^ 64)

theorem pageAt_succ (pa i : Nat) : pageAt ((pa + PGSIZE) % 2 ^ 64) i = pageAt pa (i + 1) := by
  rw [pageAt, pageAt, Nat.mod_add_mod, Nat.add_mul, Nat.one_mul]
  congr 2
  omega

/-- The loop has mapped the pages from `v` to `last`, or fails on the way. -/
theorem mapLoop_spec {last pa rounds : Nat} {r : Int} (fits : perm &&& 0x3FF = perm)
    (wf : WellFormed s root) (aligned : last % PGSIZE = 0)
    (h : mapLoop root last perm rounds (v * PGSIZE) pa s = .ok (r, s')) :
    WellFormed s' root ∧
    ((r = 0 ∧ v ≤ last / PGSIZE ∧ ∀ va < MAXVA, translate s' root va =
        if v ≤ va / PGSIZE ∧ va / PGSIZE ≤ last / PGSIZE then
          some (pageAt pa (va / PGSIZE - v), perm ||| PTE_V)
        else translate s root va) ∨
      (r = -1 ∧ ∀ va < MAXVA,
        va / PGSIZE < v ∨ (v ≤ last / PGSIZE ∧ last / PGSIZE < va / PGSIZE) →
          translate s' root va = translate s root va)) := by
  induction rounds generalizing v pa s with
  | zero => cases h
  | succ rounds ih =>
    rw [mapLoop] at h
    obtain ⟨⟨found, s₁⟩, walked, h⟩ := bind_eq_ok.mp h
    obtain ⟨low, wf₁, same, -, -, ends⟩ := walk_spec wf walked
    cases found with
    | none =>
      obtain ⟨rfl, rfl⟩ := Prod.mk.inj (Except.ok.inj h)
      exact ⟨wf₁, .inr ⟨rfl, fun va _ _ => same va⟩⟩
    | some found =>
      obtain ⟨p, k⟩ := found
      obtain ⟨rfl, there, -⟩ := ends p k rfl
      simp only at h
      split at h
      · cases h
      · set s₂ := s₁.write p (index 0 (v * PGSIZE)) (PA2PTE pa ||| perm ||| PTE_V)
        have wf₂ : WellFormed s₂ root := wf₁.write rfl there
        have page : v * PGSIZE / PGSIZE = v := Nat.mul_div_cancel v (by decide)
        have written (va : Nat) (small : va < MAXVA) : translate s₂ root va =
            if va / PGSIZE = v then some (pageAt pa 0, perm ||| PTE_V)
            else translate s root va := by
          rw [translate_write wf₁ low there small, maps_or pa perm fits, same, page, pageAt,
            Nat.zero_mul, Nat.add_zero]
        split at h
        next done =>
          obtain ⟨rfl, rfl⟩ := Prod.mk.inj (Except.ok.inj h)
          have at_ : last / PGSIZE = v := by rw [← done, page]
          refine ⟨wf₂, .inl ⟨rfl, at_.ge, fun va small => ?_⟩⟩
          rw [written va small, at_]
          by_cases here : va / PGSIZE = v
          · rw [if_pos here, if_pos ⟨here.ge, here.le⟩, here, Nat.sub_self]
          · rw [if_neg here, if_neg fun h => here (Nat.le_antisymm h.2 h.1)]
        next more =>
          have next_ : (v * PGSIZE + PGSIZE) % 2 ^ 64 = (v + 1) * PGSIZE := by
            simp only [PGSIZE, MAXVA] at low ⊢
            omega
          have apart : last / PGSIZE ≠ v := by
            intro same
            refine more ?_
            rw [← same]
            exact Nat.div_mul_cancel (Nat.dvd_of_mod_eq_zero aligned)
          rw [next_] at h
          obtain ⟨wf', result⟩ := ih wf₂ h
          refine ⟨wf', result.imp ?_ ?_⟩
          · rintro ⟨rfl, upTo, all⟩
            refine ⟨rfl, Nat.le_of_succ_le upTo, fun va small => ?_⟩
            rw [all va small, written va small]
            rcases Nat.lt_trichotomy (va / PGSIZE) v with less | here | more
            · rw [if_neg (by omega), if_neg (by omega), if_neg (by omega)]
            · rw [if_neg (by omega), if_pos here, if_pos (by omega), here, Nat.sub_self]
            · by_cases inside : va / PGSIZE ≤ last / PGSIZE
              · have count : va / PGSIZE - (v + 1) + 1 = va / PGSIZE - v := by omega
                rw [if_pos ⟨more, inside⟩, if_pos ⟨more.le, inside⟩, pageAt_succ, count]
              · rw [if_neg fun h => inside h.2, if_neg (by omega), if_neg fun h => inside h.2]
          · rintro ⟨rfl, all⟩
            refine ⟨rfl, fun va small outside => ?_⟩
            rw [all va small (by omega), written va small, if_neg (by omega)]

/-- `walk` panics before the rounds are over. -/
theorem mapLoop_ends {last pa rounds : Nat} (some_ : 0 < rounds)
    (enough : 2 ^ 26 < v + rounds) :
    mapLoop root last perm rounds (v * PGSIZE) pa s ≠ .error .fuel := by
  induction rounds generalizing v pa s with
  | zero => exact absurd some_ (Nat.lt_irrefl 0)
  | succ rounds ih =>
    rw [mapLoop, walk]
    split
    · exact fun same => by cases same
    next low =>
      simp only [Bind.bind, Except.bind]
      split
      · exact fun same => by cases same
      · split
        · exact fun same => by cases same
        · split
          · exact fun same => by cases same
          · have next_ : (v * PGSIZE + PGSIZE) % 2 ^ 64 = (v + 1) * PGSIZE := by
              simp only [PGSIZE, MAXVA] at low ⊢
              omega
            rw [next_]
            simp only [PGSIZE, MAXVA] at low
            exact ih (by omega) (by omega)

theorem kfree_spec {pa : Nat} (wf : WellFormed s root) (unused : Unused next s.words root 2 pa)
    (once : pa ∉ s.freelist) (h : kfree pa s = .ok s') :
    WellFormed s' root ∧ s'.freelist = pa :: s.freelist ∧
    s'.words = (s.memset pa 0x0101010101010101).words ∧
    ∀ va, translate s' root va = translate s root va := by
  unfold kfree at h
  split at h
  · cases h
  next fine =>
    obtain rfl := Except.ok.inj h
    obtain ⟨aligned, _, high⟩ : pa % PGSIZE = 0 ∧ s.kernelEnd ≤ pa ∧ pa < PHYSTOP := by
      omega
    have wf' := wf.memset unused 0x0101010101010101
    refine ⟨⟨wf.aligned, wf'.distinct, fun page free => ?_, ?_, fun page free => ?_⟩, rfl, rfl,
      fun va => lookup_memset unused _ (by rfl) _⟩
    · rcases List.mem_cons.mp free with rfl | free
      · exact unused.update unused
      · exact wf'.unused page free
    · exact List.nodup_cons.mpr ⟨once, wf.once⟩
    · rcases List.mem_cons.mp free with rfl | free
      · exact ⟨aligned, high⟩
      · exact wf.pages page free

theorem kfree_ends {pa : Nat} : kfree pa s ≠ .error .fuel := by
  unfold kfree
  split <;> exact fun same => by cases same

/-- The pages that the range from `v` to `stop` maps to are neither table pages nor free, and
each is mapped once. -/
def Frees (s : Ram) (root v stop : Nat) : Prop :=
  ∀ va < MAXVA, v ≤ va / PGSIZE → va / PGSIZE * PGSIZE < stop →
    ∀ pa flags, translate s root va = some (pa, flags) →
      Unused next s.words root 2 pa ∧ pa ∉ s.freelist ∧
      ∀ va' < MAXVA, v ≤ va' / PGSIZE → va' / PGSIZE * PGSIZE < stop →
        ∀ flags', translate s root va' = some (pa, flags') → va' / PGSIZE = va / PGSIZE

/-- The entry of the page `v` is cleared. -/
theorem translate_clear (wf : WellFormed s root) (low : v * PGSIZE < MAXVA)
    (there : follow next s.words root (path (v * PGSIZE)) = some q) (small : va < MAXVA) :
    translate (s.write q (index 0 (v * PGSIZE)) 0) root va =
      if va / PGSIZE = v then none else translate s root va := by
  rw [translate_write wf low there small, maps_zero, Nat.mul_div_cancel v (by decide)]

theorem unmapped {t : Ram} {stop : Nat} (more : v * PGSIZE < stop)
    (first : ∀ va < MAXVA, translate t root va =
      if va / PGSIZE = v then none else translate s root va)
    (later : ∀ va < MAXVA, translate s' root va =
      if v + 1 ≤ va / PGSIZE ∧ va / PGSIZE * PGSIZE < stop then none else translate t root va)
    (small : va < MAXVA) : translate s' root va =
      if v ≤ va / PGSIZE ∧ va / PGSIZE * PGSIZE < stop then none else translate s root va := by
  rw [later va small, first va small]
  by_cases here : va / PGSIZE = v
  · have under : va / PGSIZE * PGSIZE < stop := (congrArg (· * PGSIZE) here).trans_lt more
    rw [if_neg (by omega), if_pos here, if_pos ⟨here.ge, under⟩]
  · rw [if_neg here]
    refine if_congr ?_ rfl rfl
    omega

/-- The page of `v` is freed and its entry cleared. -/
theorem free_page {t : Ram} {stop pa : Nat} {flags : Pte} (wf : WellFormed s root)
    (owns : Frees s root v stop) (low : v * PGSIZE < MAXVA) (more : v * PGSIZE < stop)
    (there : follow next s.words root (path (v * PGSIZE)) = some q)
    (mapped : translate s root (v * PGSIZE) = some (pa, flags)) (freed : kfree pa s = .ok t) :
    let t' := t.write q (index 0 (v * PGSIZE)) 0
    WellFormed t' root ∧ Frees t' root (v + 1) stop ∧
      ∀ va < MAXVA, translate t' root va =
        if va / PGSIZE = v then none else translate s root va := by
  have page : v * PGSIZE / PGSIZE = v := Nat.mul_div_cancel v (by decide)
  have inside : v * PGSIZE / PGSIZE * PGSIZE < stop := by
    rw [page]
    exact more
  obtain ⟨unused, once, alone⟩ := owns (v * PGSIZE) low page.ge inside pa flags mapped
  obtain ⟨wf', free, words, same⟩ := kfree_spec wf unused once freed
  have there' : follow next t.words root (path (v * PGSIZE)) = some q := by
    rw [words]
    exact (follow_update unused (by rfl)).trans there
  have cleared (va : Nat) (small : va < MAXVA) :
      translate (t.write q (index 0 (v * PGSIZE)) 0) root va =
        if va / PGSIZE = v then none else translate s root va := by
    rw [translate_clear wf' low there' small, same]
  refine ⟨wf'.write rfl there', fun va small from_ under pa' flags' found => ?_, cleared⟩
  have other : va / PGSIZE ≠ v := by omega
  rw [cleared va small, if_neg other] at found
  obtain ⟨unused', once', alone'⟩ := owns va small (by omega) under pa' flags' found
  refine ⟨?_, ?_, fun va' small' from' under' flags₂ found' => ?_⟩
  · have kept : Unused next t.words root 2 pa' := by
      rw [words]
      exact unused'.update unused
    exact kept.write wf'.distinct rfl there'
  · change pa' ∉ t.freelist
    rw [free, List.mem_cons, not_or]
    refine ⟨?_, once'⟩
    rintro rfl
    have same_ := alone' (v * PGSIZE) low page.ge inside flags mapped
    rw [page] at same_
    exact other same_.symm
  · rw [cleared va' small', if_neg (by omega)] at found'
    exact alone' va' small' (by omega) under' flags₂ found'

theorem unmapLoop_spec {stop rounds : Nat} {doFree : Bool} (wf : WellFormed s root)
    (frees : doFree = true → Frees s root v stop)
    (h : unmapLoop root stop doFree rounds (v * PGSIZE) s = .ok s') :
    WellFormed s' root ∧ ∀ va < MAXVA, translate s' root va =
      if v ≤ va / PGSIZE ∧ va / PGSIZE * PGSIZE < stop then none else translate s root va := by
  induction rounds generalizing v s with
  | zero => cases h
  | succ rounds ih =>
    rw [unmapLoop] at h
    split at h
    next more =>
      obtain ⟨⟨found, s₁⟩, walked, h⟩ := bind_eq_ok.mp h
      obtain ⟨low, -, -, still, -, ends⟩ := walk_spec wf walked
      obtain rfl := still rfl
      cases found with
      | none => cases h
      | some found =>
        obtain ⟨p, k⟩ := found
        obtain ⟨rfl, there, maps_⟩ := ends p k rfl
        have next_ : (v * PGSIZE + PGSIZE) % 2 ^ 64 = (v + 1) * PGSIZE := by
          simp only [PGSIZE, MAXVA] at low ⊢
          omega
        simp only [next_] at h
        split at h
        · cases h
        next valid =>
          have mapped := maps_.trans (if_pos valid)
          split at h
          · cases h
          · cases doFree with
            | false =>
              obtain ⟨wf', all⟩ := ih (wf.write rfl there) (fun no => by cases no) h
              exact ⟨wf', fun va => unmapped more (fun _ => translate_clear wf low there) all⟩
            | true =>
              obtain ⟨t, freed, h⟩ := bind_eq_ok.mp h
              obtain ⟨wf₁, owns, cleared⟩ := free_page wf (frees rfl) low more there mapped freed
              obtain ⟨wf', all⟩ := ih wf₁ (fun _ => owns) h
              exact ⟨wf', fun va => unmapped more cleared all⟩
    next done =>
      obtain rfl := Except.ok.inj h
      refine ⟨wf, fun va small => (if_neg fun inside => ?_).symm⟩
      have le := Nat.mul_le_mul_right PGSIZE inside.1
      omega

theorem unmapLoop_ends {stop rounds : Nat} {doFree : Bool} (some_ : 0 < rounds)
    (enough : 2 ^ 26 < v + rounds) :
    unmapLoop root stop doFree rounds (v * PGSIZE) s ≠ .error .fuel := by
  induction rounds generalizing v s with
  | zero => exact absurd some_ (Nat.lt_irrefl 0)
  | succ rounds ih =>
    rw [unmapLoop, walk]
    split
    · split
      · exact fun same => by cases same
      next low =>
        have next_ : (v * PGSIZE + PGSIZE) % 2 ^ 64 = (v + 1) * PGSIZE := by
          simp only [PGSIZE, MAXVA] at low ⊢
          omega
        rw [next_]
        have later (t : Ram) : unmapLoop root stop doFree rounds ((v + 1) * PGSIZE) t ≠
            .error .fuel := by
          simp only [PGSIZE, MAXVA] at low
          exact ih (by omega) (by omega)
        simp only [Bind.bind, Except.bind]
        split
        · exact fun same => by cases same
        · split
          · exact fun same => by cases same
          · split
            · exact fun same => by cases same
            · split
              · split
                · next panic freed =>
                  rintro ⟨⟩
                  exact kfree_ends freed
                · exact later _
              · exact later _
    · exact fun same => by cases same

theorem round_down (va : Nat) : PGROUNDDOWN va = va / PGSIZE * PGSIZE := by
  simp only [PGROUNDDOWN, PGSIZE]
  omega

theorem round_down_div (va : Nat) : PGROUNDDOWN va / PGSIZE = va / PGSIZE := by
  rw [round_down, Nat.mul_div_cancel _ (by decide)]

theorem rounds_enough (v : Nat) : 2 ^ 26 < v + (MAXVA / PGSIZE + 1) := by
  have all : MAXVA / PGSIZE = 2 ^ 26 := by decide
  omega

/-- On a well-formed table, `walk` finds the entry of an address and changes no mapping, and
writing the entry changes the mapping of that page only; `mappages` maps its range or
fails, and then has touched nothing outside; `uvmunmap` unmaps its range. The table stays
well-formed. The ends of the ranges are sums of `uint64`. -/
theorem tables_map (wf : WellFormed s root) :
    (∀ va < MAXVA, ∀ alloc, ∃ r s', walk root va alloc s = .ok (r, s') ∧ WellFormed s' root ∧
      (∀ va', translate s' root va' = translate s root va') ∧ (alloc = false → s' = s) ∧
      (r = none → translate s root va = none) ∧
      ∀ p k, r = some (p, k) → translate s root va = maps (s'.words p k) ∧
        ∀ e, WellFormed (s'.write p k e) root ∧ ∀ va' < MAXVA,
          translate (s'.write p k e) root va' =
            if va' / PGSIZE = va / PGSIZE then maps e else translate s root va') ∧
    (∀ va size pa perm, perm &&& 0x3FF = perm →
      mappages root va size pa perm s ≠ .error .fuel ∧
      ∀ r s', mappages root va size pa perm s = .ok (r, s') → WellFormed s' root ∧
        let first := va / PGSIZE
        let last := (va + size - 1) % 2 ^ 64 / PGSIZE
        (r = 0 ∧ first ≤ last ∧ ∀ va' < MAXVA, translate s' root va' =
            if first ≤ va' / PGSIZE ∧ va' / PGSIZE ≤ last then
              some (pageAt pa (va' / PGSIZE - first), perm ||| PTE_V)
            else translate s root va') ∨
          (r = -1 ∧ ∀ va' < MAXVA,
            va' / PGSIZE < first ∨ (first ≤ last ∧ last < va' / PGSIZE) →
              translate s' root va' = translate s root va')) ∧
    ∀ va npages doFree,
      let stop := (va + npages * PGSIZE) % 2 ^ 64
      (doFree = true → Frees s root (va / PGSIZE) stop) →
      uvmunmap root va npages doFree s ≠ .error .fuel ∧
      ∀ s', uvmunmap root va npages doFree s = .ok s' → WellFormed s' root ∧
        ∀ va' < MAXVA, translate s' root va' =
          if va / PGSIZE ≤ va' / PGSIZE ∧ va' / PGSIZE * PGSIZE < stop then none
          else translate s root va' := by
  refine ⟨fun va low alloc => ?_, fun va size pa perm fits => ⟨?_, fun r s' h => ?_⟩,
    fun va npages doFree frees => ⟨?_, fun s' h => ?_⟩⟩
  · have walked : walk root va alloc s = .ok ((walkLoop va alloc 2 root s).1,
        (walkLoop va alloc 2 root s).2) := if_neg (Nat.not_le_of_lt low)
    obtain ⟨-, wf', same, still, none_, ends⟩ := walk_spec wf walked
    refine ⟨_, _, walked, wf', same, still, none_, fun p k some_ => ?_⟩
    obtain ⟨rfl, there, maps_⟩ := ends p k some_
    refine ⟨maps_, fun e => ⟨wf'.write rfl there, fun va' low' => ?_⟩⟩
    rw [translate_write wf' low there low', same]
  · unfold mappages
    split
    · exact fun same => by cases same
    · rw [round_down]
      exact mapLoop_ends (Nat.succ_pos _) (rounds_enough _)
  · unfold mappages at h
    split at h
    · cases h
    · rw [round_down va] at h
      have aligned : PGROUNDDOWN ((va + size - 1) % 2 ^ 64) % PGSIZE = 0 := by
        rw [round_down, Nat.mul_mod_left]
      obtain ⟨wf', result⟩ := mapLoop_spec fits wf aligned h
      rw [round_down_div] at result
      exact ⟨wf', result⟩
  · unfold uvmunmap
    split
    · exact fun same => by cases same
    next aligned =>
      have start : va = va / PGSIZE * PGSIZE :=
        (Nat.div_mul_cancel (Nat.dvd_of_mod_eq_zero (not_not.mp aligned))).symm
      rw [start]
      exact unmapLoop_ends (Nat.succ_pos _) (rounds_enough _)
  · unfold uvmunmap at h
    split at h
    · cases h
    next aligned =>
      have start : va / PGSIZE * PGSIZE = va :=
        Nat.div_mul_cancel (Nat.dvd_of_mod_eq_zero (not_not.mp aligned))
      have h : unmapLoop root ((va + npages * PGSIZE) % 2 ^ 64) doFree (MAXVA / PGSIZE + 1)
          (va / PGSIZE * PGSIZE) s = .ok s' := by
        rw [start]
        exact h
      exact unmapLoop_spec wf frees h

/-- An empty table, with two pages free. -/
def bare : Ram := ⟨fun _ _ => 0, [0x80002000, 0x80003000], 0x80001000⟩

theorem bare_wf : WellFormed bare 0x80001000 :=
  .of_empty (by decide) (fun _ => rfl) (by decide) (by decide) (by decide)

theorem tables_map_bare : ∃ s', mappages 0x80001000 0 4096 0x80005000 7 bare = .ok (0, s') ∧
    translate s' 0x80001000 0 = some (pageAt 0x80005000 0, 7 ||| PTE_V) := by
  obtain ⟨s', done⟩ : ∃ s', mappages 0x80001000 0 4096 0x80005000 7 bare = .ok (0, s') :=
    ⟨_, rfl⟩
  refine ⟨s', done, ?_⟩
  rcases (((tables_map bare_wf).2.1 0 4096 0x80005000 7 (by decide)).2 0 s' done).2 with
    ⟨-, -, mapped⟩ | ⟨failed, -⟩
  · exact mapped 0 (by decide)
  · cases failed

end PackedMaps
