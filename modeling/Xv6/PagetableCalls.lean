import Xv6.PagetableViews

/-!
# The functions of vm.c balance their pages

A table of a process maps its user pages from 0 on and the two pages at the top.
Each function is stated by what it does to that shape and by an account: the free
list, the table pages and the user's pages together hold every page as often as
before.
-/

namespace PagetableCalls
open Pagetables PagetableViews Outcomes Function

variable {E : Type} {t : Pagetable} {m : Memory} {pg : Page} {k n v : Nat}

/-- The user pages of a process of a given size. -/
def pages (sz : Nat) : Nat := PGROUNDUP sz / PGSIZE

/-- The table of a process with `n` user pages. -/
structure Shape (t : Pagetable) (n : Nat) : Prop where
  within : n ≤ USER
  mapped : ∀ v < 512 ^ 3, find t v ≠ none ↔ v < n ∨ v = USER ∨ v = USER + 1
  readable : ∀ v < 512 ^ 3, ∀ pte, find t v = some pte → pte.perm.r = true

instance (m : Memory) (pg : Page) : Decidable (Valid m pg) :=
  inferInstanceAs (Decidable (_ ∧ _ ∧ _))

/-- The pages there are, each once. -/
def ram (m : Memory) (pg : Page) : Nat := if Valid m pg then 1 else 0

/-- The pages that a table and the free list hold. -/
def held (t : Pagetable) (m : Memory) (pg : Page) : Nat := free m pg + nodes t pg + users t pg

/-- No page is held twice, and only pages there are. -/
def Owns (t : Pagetable) (m : Memory) : Prop := ∀ pg, held t m pg ≤ ram m pg

/-- The same pages are held before and after. -/
structure Even (t : Pagetable) (m : Memory) (t' : Pagetable) (m' : Memory) : Prop where
  kernel : m'.kernelEnd = m.kernelEnd
  held : ∀ pg, held t' m' pg = held t m pg

theorem ram_congr {m' : Memory} (kernel : m'.kernelEnd = m.kernelEnd) (pg : Page) :
    ram m' pg = ram m pg := by
  have same : Valid m' pg ↔ Valid m pg := by rw [Valid, Valid, kernel]
  exact if_congr same rfl rfl

theorem ram_le_one (m : Memory) (pg : Page) : ram m pg ≤ 1 := by
  unfold ram
  split <;> omega

theorem valid_of_ram (h : ram m pg ≠ 0) : Valid m pg := by
  by_contra invalid
  exact h (if_neg invalid)

theorem Even.refl (t : Pagetable) (m : Memory) : Even t m t m := ⟨rfl, fun _ => rfl⟩

theorem Even.trans {t' t'' : Pagetable} {m' m'' : Memory} (first : Even t m t' m')
    (next : Even t' m' t'' m'') : Even t m t'' m'' :=
  ⟨next.kernel.trans first.kernel, fun pg => (next.held pg).trans (first.held pg)⟩

theorem Even.owns {t' : Pagetable} {m' : Memory} (even : Even t m t' m') (owns : Owns t m) :
    Owns t' m' := by
  intro pg
  rw [even.held, ram_congr even.kernel]
  exact owns pg

theorem users_pos {pte : Pte} (hv : v < USER) (there : find t v = some pte) :
    1 ≤ users t pte.pa := by
  have one : (if (find t v).map Pte.pa = some pte.pa then 1 else 0) = 1 := by
    rw [there]
    exact if_pos rfl
  have single := Finset.single_le_sum
    (f := fun v => if (find t v).map Pte.pa = some pte.pa then 1 else 0)
    (fun _ _ => Nat.zero_le _) (Finset.mem_range.mpr hv)
  simp only [one] at single
  exact single

theorem Owns.valid_user {pte : Pte} (owns : Owns t m) (hv : v < USER)
    (there : find t v = some pte) : Valid m pte.pa := by
  have le := users_pos hv there
  refine valid_of_ram fun none_ => ?_
  have all := owns pte.pa
  unfold held at all
  omega

theorem Owns.valid_node (owns : Owns t m) (some_ : nodes t pg ≠ 0) : Valid m pg := by
  refine valid_of_ram fun none_ => ?_
  have all := owns pg
  unfold held at all
  omega

theorem PGROUNDUP_eq {sz : Nat} (small : sz ≤ USER * PGSIZE) :
    PGROUNDUP sz = (sz + 4095) / 4096 * PGSIZE := by
  have short : sz + 4095 < 2 ^ 64 := by
    simp only [USER, TRAPFRAME, TRAMPOLINE, MAXVA, PGSIZE] at small
    omega
  simp only [PGROUNDUP, PGSIZE]
  rw [Nat.mod_eq_of_lt short]

theorem pages_eq {sz : Nat} (small : sz ≤ USER * PGSIZE) : pages sz = (sz + 4095) / 4096 := by
  rw [pages, PGROUNDUP_eq small]
  exact Nat.mul_div_cancel _ (by decide)

theorem pages_mul (small : n ≤ USER) : pages (n * PGSIZE) = n := by
  rw [pages_eq (Nat.mul_le_mul_right _ small)]
  simp only [PGSIZE]
  omega

@[simp] theorem pages_zero : pages 0 = 0 := by
  rw [pages_eq (Nat.zero_le _)]

theorem USER_eq : USER = 67108862 := rfl

theorem sum_change {S : Finset Nat} {f g : Nat → Nat} (mem : v ∈ S)
    (others : ∀ w ∈ S, w ≠ v → g w = f w) : ∑ w ∈ S, g w + f v = ∑ w ∈ S, f w + g v := by
  have new := Finset.add_sum_erase S g mem
  have old := Finset.add_sum_erase S f mem
  have rest : ∑ w ∈ S.erase v, g w = ∑ w ∈ S.erase v, f w :=
    Finset.sum_congr rfl fun w hw =>
      others w (Finset.mem_of_mem_erase hw) (Finset.ne_of_mem_erase hw)
  omega

theorem users_change {t' : Pagetable} {e : Option Pte} (hv : v < USER)
    (same : ∀ w < 512 ^ 3, find t' w = if w = v then e else find t w) (pg : Page) :
    users t' pg + (if (find t v).map Pte.pa = some pg then 1 else 0) =
      users t pg + if e.map Pte.pa = some pg then 1 else 0 := by
  have low {w : Nat} (hw : w < USER) : w < 512 ^ 3 := by
    rw [USER_eq] at hw
    omega
  have change := sum_change (f := fun w => if (find t w).map Pte.pa = some pg then 1 else 0)
    (g := fun w => if (find t' w).map Pte.pa = some pg then 1 else 0)
    (Finset.mem_range.mpr hv) fun w hw other => by
      simp only [same w (low (Finset.mem_range.mp hw)), if_neg other]
  simp only [same v (low hv), if_true] at change
  exact change

theorem users_congr {t' : Pagetable} (same : ∀ w < USER, find t' w = find t w) (pg : Page) :
    users t' pg = users t pg := by
  refine Finset.sum_congr rfl fun w hw => ?_
  rw [same w (Finset.mem_range.mp hw)]

/-- All callers map one page: the loop of `mappages` runs once. -/
theorem mappages_spec {pa : Page} {perm : Perm} (empty : find t v = none)
    (low : v * PGSIZE < MAXVA) :
    Yields (mappages t (v * PGSIZE) PGSIZE pa perm m) fun r =>
      r.2.2.kernelEnd = m.kernelEnd ∧
      (∀ pg, nodes r.2.1 pg + free r.2.2 pg = nodes t pg + free m pg) ∧
      ∀ w < 512 ^ 3, find r.2.1 w =
        if r.1 = true ∧ w = v then some ⟨pa, perm⟩ else find t w := by
  have first : PGROUNDDOWN (v * PGSIZE) = v * PGSIZE := by
    simp only [PGROUNDDOWN, PGSIZE]
    omega
  have last : PGROUNDDOWN (v * PGSIZE + PGSIZE - 1) = v * PGSIZE := by
    simp only [PGROUNDDOWN, PGSIZE]
    omega
  have small : v < 512 ^ 3 := by
    simp only [PGSIZE, MAXVA] at low
    omega
  rw [mappages, if_neg (by decide)]
  simp only [first, last, Nat.sub_self, Nat.zero_div, mapLoop]
  refine (walk_true low).bind ?_
  rintro ⟨r, t', m'⟩ ⟨kernel, same, count, result⟩
  simp only at kernel same count result ⊢
  rcases result with rfl | result
  · exact yields_ok ⟨kernel, count, fun w _ => by simp [same w]⟩
  · cases r with
    | none => exact yields_ok ⟨kernel, count, fun w _ => by simp [same w]⟩
    | some e =>
      have old := find_of_slot result.symm
      rw [same, empty] at old
      subst old
      obtain ⟨stored, still⟩ := store_spec (e := some ⟨pa, perm⟩)
        (by rw [← result]; exact Option.some_ne_none _) small
      simp only [if_true]
      refine yields_ok ⟨kernel, fun pg => ?_, fun w hw => ?_⟩
      · rw [still]
        exact count pg
      · simp only [stored w hw, same, true_and]

theorem unmapLoop_spec (doFree : Bool) (npages : Nat) {v : Nat} {t : Pagetable} {m : Memory}
    (high : (v + npages) * PGSIZE ≤ MAXVA)
    (there : ∀ w, v ≤ w → w < v + npages → ∃ pte, find t w = some pte ∧ pte.perm.r = true)
    (user : doFree = true → v + npages ≤ USER ∧ Owns t m) :
    Yields (unmapLoop doFree npages (v * PGSIZE) t m) fun r =>
      (∀ w < 512 ^ 3, find r.1 w = if v ≤ w ∧ w < v + npages then none else find t w) ∧
      (∀ pg, nodes r.1 pg = nodes t pg) ∧ (doFree = false → r.2 = m) ∧
      (doFree = true → Even t m r.1 r.2) := by
  induction npages generalizing v t m with
  | zero =>
    refine yields_ok ⟨fun w hw => ?_, fun _ => rfl, fun _ => rfl, fun _ => .refl t m⟩
    rw [if_neg (by omega)]
  | succ npages ih =>
    have low : v * PGSIZE < MAXVA := by
      simp only [PGSIZE, MAXVA] at high ⊢
      omega
    have small : v < 512 ^ 3 := by
      simp only [PGSIZE, MAXVA] at low
      omega
    obtain ⟨pte, found, readable⟩ := there v le_rfl (by omega)
    have entry := slot_of_find found
    have leaf : pte.perm ≠ ⟨false, false, false, false⟩ := by
      intro same
      rw [same] at readable
      cases readable
    obtain ⟨stored, still⟩ := store_spec (e := none) (by rw [entry]; exact Option.some_ne_none _) small
    have rest (w : Nat) (from_ : v + 1 ≤ w) (below : w < v + 1 + npages) :
        ∃ pte, find (store t (v * PGSIZE) none) w = some pte ∧ pte.perm.r = true := by
      have far : w < 512 ^ 3 := by
        simp only [PGSIZE, MAXVA] at high
        omega
      rw [stored w far, if_neg (by omega)]
      exact there w (by omega) (by omega)
    have next : v * PGSIZE + PGSIZE = (v + 1) * PGSIZE := by
      rw [Nat.add_mul, Nat.one_mul]
    have shifted : v + 1 + npages = v + (npages + 1) := by omega
    have above : (v + 1 + npages) * PGSIZE ≤ MAXVA :=
      (congrArg (· * PGSIZE) shifted).trans_le high
    have gone {t' : Pagetable}
        (later : ∀ w < 512 ^ 3, find t' w = if v + 1 ≤ w ∧ w < v + 1 + npages then none
          else find (store t (v * PGSIZE) none) w) (w : Nat) (hw : w < 512 ^ 3) :
        find t' w = if v ≤ w ∧ w < v + (npages + 1) then none else find t w := by
      rw [later w hw, stored w hw]
      split_ifs <;> first | rfl | omega
    rw [unmapLoop, walk_false low, entry]
    simp only [Bind.bind, Except.bind, if_neg leaf, next]
    cases doFree with
    | false =>
      simp only [Bool.false_eq_true, if_false]
      refine (ih above rest fun h => Bool.noConfusion h).mono ?_
      rintro r ⟨later, nodes_, same, -⟩
      exact ⟨gone later, fun pg => (nodes_ pg).trans (still pg), fun _ => same rfl,
        fun h => h.elim⟩
    | true =>
      obtain ⟨within, owns⟩ := user rfl
      obtain ⟨m₁, freed, kernel, count⟩ := kfree_spec (owns.valid_user (by omega) found)
      simp only [if_true, freed]
      have even : Even t m (store t (v * PGSIZE) none) m₁ := by
        refine ⟨kernel, fun pg => ?_⟩
        have change := users_change (by omega) stored pg
        rw [found] at change
        simp only [Option.map_some, Option.map_none, Option.some.injEq, reduceCtorEq,
          if_false] at change
        simp only [held, still, count]
        omega
      refine (ih above rest fun _ => ⟨by omega, even.owns owns⟩).mono ?_
      rintro r ⟨later, nodes_, -, more⟩
      exact ⟨gone later, fun pg => (nodes_ pg).trans (still pg), fun h => Bool.noConfusion h,
        fun _ => even.trans (more rfl)⟩

/-- The last user pages are unmapped and freed. -/
theorem unmap_last (shape : Shape t n) (owns : Owns t m) (le : k ≤ n) :
    Yields (uvmunmap t (k * PGSIZE) (n - k) true m) fun r =>
      Shape r.1 k ∧ Even t m r.1 r.2 ∧
        ∀ w < 512 ^ 3, w < k ∨ n ≤ w → find r.1 w = find t w := by
  have within := shape.within
  have small (w : Nat) (below : w < USER) : w < 512 ^ 3 := by
    rw [USER_eq] at below
    omega
  have loop := unmapLoop_spec true (n - k) (v := k) (t := t) (m := m)
    (by rw [Nat.add_sub_cancel' le]
        exact (Nat.mul_le_mul_right _ within).trans (by decide))
    (fun w from_ below => by
      have far := small w (by omega)
      obtain ⟨pte, found⟩ := Option.ne_none_iff_exists'.mp
        ((shape.mapped w far).mpr (.inl (by omega)))
      exact ⟨pte, found, shape.readable w far pte found⟩)
    fun _ => ⟨by omega, owns⟩
  rw [uvmunmap, if_neg (by simp)]
  refine loop.mono ?_
  rintro r ⟨later, -, -, even⟩
  refine ⟨⟨le.trans within, fun w hw => ?_, fun w hw pte found => ?_⟩, even rfl,
    fun w hw stays => ?_⟩
  · have old := shape.mapped w hw
    rw [later w hw]
    split
    next gone =>
      refine iff_of_false (fun some_ => some_ rfl) ?_
      omega
    next stays =>
      rw [old]
      omega
  · rw [later w hw] at found
    split at found
    · cases found
    · exact shape.readable w hw pte found
  · rw [later w hw, if_neg (by omega)]

theorem unmap_users (shape : Shape t n) (owns : Owns t m) (le : k ≤ n) :
    Yields (uvmunmap t (k * PGSIZE) (n - k) true m) fun r => Shape r.1 k ∧ Even t m r.1 r.2 :=
  (unmap_last shape owns le).mono fun _ result => ⟨result.1, result.2.1⟩

theorem uvmdealloc_spec {oldsz newsz : Nat} (shape : Shape t (pages oldsz)) (owns : Owns t m)
    (small : oldsz ≤ USER * PGSIZE) :
    Yields (uvmdealloc t oldsz newsz m) fun r => r.1 = min oldsz newsz ∧
      Shape r.2.1 (pages (min oldsz newsz)) ∧ Even t m r.2.1 r.2.2 := by
  unfold uvmdealloc
  split
  next le =>
    rw [min_eq_left le]
    exact yields_ok ⟨rfl, shape, .refl t m⟩
  next less =>
    have le : newsz ≤ oldsz := Nat.le_of_not_le less
    have low := le.trans small
    rw [min_eq_right le]
    rw [pages_eq small] at shape
    rw [PGROUNDUP_eq low, PGROUNDUP_eq small, pages_eq low]
    split
    next fewer =>
      have span : ((oldsz + 4095) / 4096 * PGSIZE - (newsz + 4095) / 4096 * PGSIZE) / PGSIZE =
          (oldsz + 4095) / 4096 - (newsz + 4095) / 4096 := by
        rw [← Nat.sub_mul]
        exact Nat.mul_div_cancel _ (by decide)
      rw [span]
      refine (unmap_users shape owns (by omega)).bind ?_
      rintro ⟨t', m'⟩ ⟨shape', even⟩
      exact yields_ok ⟨rfl, shape', even⟩
    next same =>
      have equal : (newsz + 4095) / 4096 = (oldsz + 4095) / 4096 := by
        simp only [PGSIZE] at same
        omega
      rw [equal]
      exact yields_ok ⟨rfl, shape, .refl t m⟩

theorem Shape.congr {t' : Pagetable} (shape : Shape t n)
    (same : ∀ w < 512 ^ 3, find t' w = find t w) : Shape t' n := by
  refine ⟨shape.within, fun w hw => ?_, fun w hw pte found => ?_⟩
  · rw [same w hw]
    exact shape.mapped w hw
  · rw [same w hw] at found
    exact shape.readable w hw pte found

/-- Two user pages with one physical page would hold it twice. -/
theorem Owns.distinct {w : Nat} {pte pte' : Pte} (owns : Owns t m) (hv : v < USER) (hw : w < USER)
    (found : find t v = some pte) (found' : find t w = some pte') (same : pte.pa = pte'.pa) :
    v = w := by
  by_contra other
  have pair : ∑ x ∈ {v, w}, (if (find t x).map Pte.pa = some pte.pa then 1 else 0) = 2 := by
    rw [Finset.sum_pair other, found, found', Option.map_some, Option.map_some, if_pos rfl,
      if_pos (congrArg some same.symm)]
  have inside : {v, w} ⊆ Finset.range USER := by
    intro x mem
    rcases Finset.mem_insert.mp mem with rfl | mem
    · exact Finset.mem_range.mpr hv
    · rw [Finset.mem_singleton.mp mem]
      exact Finset.mem_range.mpr hw
  have le := Finset.sum_le_sum_of_subset
    (f := fun x => if (find t x).map Pte.pa = some pte.pa then 1 else 0) inside
  rw [pair] at le
  have all := owns pte.pa
  have one := ram_le_one m pte.pa
  unfold held at all
  unfold users at all
  omega

theorem aligned_eq {a b : Nat} (ha : a % PGSIZE = 0) (hb : b % PGSIZE = 0)
    (same : a / PGSIZE = b / PGSIZE) : a = b := by
  simp only [PGSIZE] at ha hb same
  omega

/-- There are fewer pages than addresses below `TRAPFRAME`. -/
theorem Shape.few (shape : Shape t n) (owns : Owns t m) : n ≤ PHYSTOP / PGSIZE := by
  by_contra more
  have within := shape.within
  have small {v : Nat} (hv : v < n) : v < 512 ^ 3 := by
    rw [USER_eq] at within
    omega
  have mapped {v : Nat} (hv : v < n) : ∃ pte, find t v = some pte ∧ Valid m pte.pa := by
    obtain ⟨pte, found⟩ := Option.ne_none_iff_exists'.mp
      ((shape.mapped v (small hv)).mpr (.inl hv))
    exact ⟨pte, found, owns.valid_user (by omega) found⟩
  have card : (Finset.range (PHYSTOP / PGSIZE)).card < (Finset.range n).card := by
    rw [Finset.card_range, Finset.card_range]
    omega
  obtain ⟨v, hv, w, hw, other, same⟩ := Finset.exists_ne_map_eq_of_card_lt_of_maps_to card
    (f := fun v => ((find t v).elim 0 Pte.pa) / PGSIZE) (by
      intro v hv
      obtain ⟨pte, found, -, -, high⟩ := mapped (Finset.mem_range.mp hv)
      simp only [found, Option.elim_some, Finset.coe_range, Set.mem_Iio]
      exact Nat.div_lt_div_of_lt_of_dvd (by decide) high)
  obtain ⟨pte, found, aligned, -, -⟩ := mapped (Finset.mem_range.mp hv)
  obtain ⟨pte', found', aligned', -, -⟩ := mapped (Finset.mem_range.mp hw)
  simp only [found, found', Option.elim_some] at same
  refine other (owns.distinct ?_ ?_ found found' ?_)
  · exact (Finset.mem_range.mp hv).trans_le within
  · exact (Finset.mem_range.mp hw).trans_le within
  · exact aligned_eq aligned aligned' same

theorem kalloc_none {m' : Memory} (h : kalloc m = (none, m')) : Even t m t m' := by
  obtain ⟨kernel, count⟩ := kalloc_spec m
  rw [h] at kernel count
  refine ⟨kernel, fun pg => ?_⟩
  have same := count pg
  simp only [reduceCtorEq, if_false] at same
  unfold held
  omega

/-- A new page becomes the next user page, or goes back. -/
theorem map_user {m' : Memory} {mem : Page} {perm : Perm} (shape : Shape t k) (owns : Owns t m)
    (readable : perm.r = true) (taken : kalloc m = (some mem, m')) :
    Yields (mappages t (k * PGSIZE) PGSIZE mem perm m') fun r =>
      (r.1 = true → Shape r.2.1 (k + 1) ∧ Even t m r.2.1 r.2.2) ∧
      (r.1 = false → Shape r.2.1 k ∧ Yields (kfree mem r.2.2) fun m'' => Even t m r.2.1 m'') := by
  have few := shape.few owns
  have below : k < USER := few.trans_lt (by decide)
  have small : k < 512 ^ 3 := below.trans_le (by decide)
  obtain ⟨kernel, count⟩ := kalloc_spec m
  rw [taken] at kernel count
  simp only [Option.some.injEq] at kernel count
  have valid : Valid m mem := by
    refine valid_of_ram fun none_ => ?_
    have all := owns mem
    have one := count mem
    rw [if_pos rfl] at one
    unfold held at all
    omega
  have empty : find t k = none := by
    by_contra some_
    have old := (shape.mapped k small).mp some_
    rw [USER_eq] at below old
    omega
  have low : k * PGSIZE < MAXVA := by
    simp only [PGSIZE, MAXVA]
    rw [USER_eq] at below
    omega
  refine (mappages_spec empty low).mono ?_
  rintro ⟨ok, t', m''⟩ ⟨kernel', nodes_, same⟩
  simp only at kernel' nodes_ same ⊢
  constructor
  · rintro rfl
    simp only [true_and] at same
    refine ⟨⟨below, fun w hw => ?_, fun w hw pte found => ?_⟩, kernel'.trans kernel, fun pg => ?_⟩
    · have old := shape.mapped w hw
      rw [same w hw]
      split
      next here => exact iff_of_true (Option.some_ne_none _) (by omega)
      next away =>
        rw [old]
        omega
    · rw [same w hw] at found
      split at found
      · cases found
        exact readable
      · exact shape.readable w hw pte found
    · have change := users_change below same pg
      rw [empty] at change
      simp only [Option.map_some, Option.map_none, Option.some.injEq, reduceCtorEq,
        if_false] at change
      have one := count pg
      have more := nodes_ pg
      unfold held
      omega
  · rintro rfl
    simp only [Bool.false_eq_true, false_and, if_false] at same
    refine ⟨shape.congr same, ?_⟩
    have valid' : Valid m'' mem := by
      rw [Valid, kernel', kernel]
      exact valid
    refine (kfree_spec valid').mono ?_
    rintro m₃ ⟨kernel₃, count₃⟩
    refine ⟨kernel₃.trans (kernel'.trans kernel), fun pg => ?_⟩
    have users_ : users t' pg = users t pg :=
      users_congr (fun w hw => same w (hw.trans (by decide))) pg
    have one := count pg
    have two := count₃ pg
    have more := nodes_ pg
    unfold held
    omega

/-- What `uvmalloc` and `uvmcopy` do when they fail. -/
theorem undo_spec (shape : Shape t k) (owns : Owns t m) (le : n ≤ k) :
    Yields (uvmdealloc t (k * PGSIZE) (n * PGSIZE) m) fun r =>
      Shape r.2.1 n ∧ Even t m r.2.1 r.2.2 := by
  have within := shape.within
  have less := min_eq_right (Nat.mul_le_mul_right PGSIZE le)
  rw [← pages_mul within] at shape
  refine (uvmdealloc_spec shape owns (Nat.mul_le_mul_right _ within)).mono ?_
  rintro r ⟨-, shape', even⟩
  rw [less, pages_mul (le.trans within)] at shape'
  exact ⟨shape', even⟩

theorem allocLoop_spec {newsz : Nat} {xperm : Perm} (rounds : Nat) {k : Nat} {t : Pagetable}
    {m : Memory} (shape : Shape t k) (owns : Owns t m) (from_ : n ≤ k)
    (upTo : k ≤ (newsz + 4095) / 4096) (enough : newsz < (k + rounds) * PGSIZE) :
    Yields (allocLoop (n * PGSIZE) newsz xperm rounds (k * PGSIZE) t m) fun r =>
      Even t m r.2.1 r.2.2 ∧ ((r.1 = 0 ∧ Shape r.2.1 n) ∨
        (r.1 = newsz ∧ newsz ≤ USER * PGSIZE ∧ Shape r.2.1 (pages newsz))) := by
  have done {k : Nat} {t : Pagetable} (shape : Shape t k) (upTo : k ≤ (newsz + 4095) / 4096)
      (over_ : newsz ≤ k * PGSIZE) : newsz ≤ USER * PGSIZE ∧ Shape t (pages newsz) := by
    have small := over_.trans (Nat.mul_le_mul_right _ shape.within)
    have all : k = (newsz + 4095) / 4096 := by
      simp only [PGSIZE] at over_
      omega
    rw [pages_eq small, ← all]
    exact ⟨small, shape⟩
  induction rounds generalizing k t m with
  | zero => exact yields_ok ⟨.refl t m, .inr ⟨rfl, done shape upTo enough.le⟩⟩
  | succ rounds ih =>
    unfold allocLoop
    split
    next less =>
      split
      next m₁ none_ =>
        have even : Even t m t m₁ := kalloc_none none_
        refine (undo_spec shape (even.owns owns) from_).bind ?_
        rintro ⟨r, t', m'⟩ ⟨shape', even'⟩
        exact yields_ok ⟨even.trans even', .inl ⟨rfl, shape'⟩⟩
      next mem m₁ some_ =>
        refine (map_user shape owns rfl some_).bind ?_
        rintro ⟨ok, t', m'⟩ ⟨fine, failed⟩
        cases ok with
        | false =>
          obtain ⟨shape', freed⟩ := failed rfl
          refine freed.bind fun m'' even => ?_
          refine (undo_spec shape' (even.owns owns) from_).bind ?_
          rintro ⟨r, t₂, m₂⟩ ⟨shape₂, even₂⟩
          exact yields_ok ⟨even.trans even₂, .inl ⟨rfl, shape₂⟩⟩
        | true =>
          obtain ⟨shape', even⟩ := fine rfl
          have few := shape'.few (even.owns owns)
          have next : (k * PGSIZE + PGSIZE) % 2 ^ 64 = (k + 1) * PGSIZE := by
            simp only [PGSIZE, PHYSTOP] at few ⊢
            omega
          simp only [next]
          refine (ih shape' (even.owns owns) (by omega) ?_ ?_).mono ?_
          · simp only [PGSIZE] at less
            omega
          · rwa [Nat.add_assoc, Nat.add_comm 1]
          · rintro r ⟨later, result⟩
            exact ⟨even.trans later, result⟩
    next over_ => exact yields_ok ⟨.refl t m, .inr ⟨rfl, done shape upTo (Nat.le_of_not_lt over_)⟩⟩

/-- `uvmalloc` returns the new size, or 0 with the table as large as before. -/
theorem uvmalloc_spec {oldsz newsz : Nat} {xperm : Perm} (shape : Shape t (pages oldsz))
    (owns : Owns t m) (small : oldsz ≤ USER * PGSIZE) :
    Yields (uvmalloc t oldsz newsz xperm m) fun r => Even t m r.2.1 r.2.2 ∧
      ((r.1 = 0 ∧ Shape r.2.1 (pages oldsz)) ∨
        (r.1 = max oldsz newsz ∧ r.1 ≤ USER * PGSIZE ∧ Shape r.2.1 (pages r.1))) := by
  unfold uvmalloc
  split
  next less =>
    exact yields_ok ⟨.refl t m, .inr ⟨(max_eq_left less.le).symm, small, shape⟩⟩
  next le =>
    rw [pages_eq small] at shape ⊢
    simp only [PGROUNDUP_eq small]
    refine (allocLoop_spec _ shape owns le_rfl (by omega) ?_).mono ?_
    · simp only [PGSIZE]
      omega
    · rintro ⟨r, t', m'⟩ ⟨even, result⟩
      refine ⟨even, result.imp_right ?_⟩
      rintro ⟨rfl, within, shape'⟩
      exact ⟨(max_eq_right (Nat.le_of_not_lt le)).symm, within, shape'⟩

theorem copyLoop_spec {old : Pagetable} {sz : Nat} (whole : Shape old (pages sz))
    (small : sz ≤ USER * PGSIZE) (rounds : Nat) {k : Nat} {t : Pagetable} {m : Memory}
    (shape : Shape t k) (owns : Owns t m) (upTo : k ≤ pages sz)
    (enough : sz < (k + rounds) * PGSIZE) :
    Yields (copyLoop old sz rounds (k * PGSIZE) t m) fun r => Even t m r.2.1 r.2.2 ∧
      ((r.1 = false ∧ Shape r.2.1 0) ∨ (r.1 = true ∧ Shape r.2.1 (pages sz))) := by
  have undo {k : Nat} {t : Pagetable} {m : Memory} (shape : Shape t k) (owns : Owns t m) :
      Yields (uvmunmap t 0 (k * PGSIZE / PGSIZE) true m) fun r =>
        Shape r.1 0 ∧ Even t m r.1 r.2 := by
    have all := unmap_users shape owns (Nat.zero_le k)
    rwa [Nat.zero_mul, Nat.sub_zero, ← Nat.mul_div_cancel k (by decide : 0 < PGSIZE)] at all
  have done {k : Nat} {t : Pagetable} (shape : Shape t k) (upTo : k ≤ pages sz)
      (over_ : sz ≤ k * PGSIZE) : Shape t (pages sz) := by
    have all : k = pages sz := by
      rw [pages_eq small] at upTo ⊢
      simp only [PGSIZE] at over_
      omega
    rwa [← all]
  induction rounds generalizing k t m with
  | zero => exact yields_ok ⟨.refl t m, .inr ⟨rfl, done shape upTo enough.le⟩⟩
  | succ rounds ih =>
    unfold copyLoop
    split
    next less =>
      have inside : k < pages sz := by
        rw [pages_eq small]
        simp only [PGSIZE] at less
        omega
      have far : k < 512 ^ 3 := (inside.trans_le whole.within).trans (by decide)
      obtain ⟨pte, found⟩ := Option.ne_none_iff_exists'.mp
        ((whole.mapped k far).mpr (.inl inside))
      have low : k * PGSIZE < MAXVA := less.trans_le (small.trans (by decide))
      rw [walk_false low, slot_of_find found]
      simp only [Bind.bind, Except.bind]
      split
      next m₁ none_ =>
        have even : Even t m t m₁ := kalloc_none none_
        refine (undo shape (even.owns owns)).bind ?_
        rintro ⟨t', m'⟩ ⟨shape', even'⟩
        exact yields_ok ⟨even.trans even', .inl ⟨rfl, shape'⟩⟩
      next mem m₁ some_ =>
        refine (map_user shape owns (whole.readable k far pte found) some_).bind ?_
        rintro ⟨ok, t', m'⟩ ⟨fine, failed⟩
        cases ok with
        | false =>
          obtain ⟨shape', freed⟩ := failed rfl
          refine freed.bind fun m'' even => ?_
          refine (undo shape' (even.owns owns)).bind ?_
          rintro ⟨t₂, m₂⟩ ⟨shape₂, even₂⟩
          exact yields_ok ⟨even.trans even₂, .inl ⟨rfl, shape₂⟩⟩
        | true =>
          obtain ⟨shape', even⟩ := fine rfl
          have next : k * PGSIZE + PGSIZE = (k + 1) * PGSIZE := by
            rw [Nat.add_mul, Nat.one_mul]
          simp only [next]
          refine (ih shape' (even.owns owns) inside ?_).mono ?_
          · rwa [Nat.add_assoc, Nat.add_comm 1]
          · rintro r ⟨later, result⟩
            exact ⟨even.trans later, result⟩
    next over_ => exact yields_ok ⟨.refl t m, .inr ⟨rfl, done shape upTo (Nat.le_of_not_lt over_)⟩⟩

theorem uvmcopy_spec {old : Pagetable} {sz : Nat} (whole : Shape old (pages sz))
    (small : sz ≤ USER * PGSIZE) (shape : Shape t 0) (owns : Owns t m) :
    Yields (uvmcopy old t sz m) fun r => Even t m r.2.1 r.2.2 ∧
      ((r.1 = false ∧ Shape r.2.1 0) ∨ (r.1 = true ∧ Shape r.2.1 (pages sz))) := by
  have loop := copyLoop_spec whole small (sz / PGSIZE + 1) shape owns (Nat.zero_le _) (by
    simp only [PGSIZE]
    omega)
  rwa [Nat.zero_mul] at loop

theorem below_le {below : E → Nat} {node : Node E} {i : Fin 512} {e : E}
    (here : node.pte i = some e) : below e ≤ nodesOf below pg node := by
  have single := Finset.single_le_sum (f := fun i => (node.pte i).elim 0 below)
    (fun _ _ => Nat.zero_le _) (Finset.mem_univ i)
  simp only [here, Option.elim_some] at single
  unfold nodesOf
  omega

theorem page_le {below : E → Nat} (node : Node E) : 1 ≤ nodesOf below node.page node := by
  unfold nodesOf
  rw [if_pos rfl]
  omega

/-- How often a page is below the entries with the given numbers. -/
def belowEntries (below : E → Nat) (node : Node E) (is : List (Fin 512)) : Nat :=
  (is.map fun i => (node.pte i).elim 0 below).sum

/-- The loop of `freewalk` puts the pages below the entries on the free list. -/
theorem freeEntries_spec {child : E → Memory → Except Panic Memory} (below : E → Page → Nat)
    {node : Node E}
    (each : ∀ i e, node.pte i = some e → ∀ m', m'.kernelEnd = m.kernelEnd →
      Yields (child e m') fun m'' => m''.kernelEnd = m'.kernelEnd ∧
        ∀ pg, free m'' pg = free m' pg + below e pg) :
    Yields ((List.finRange 512).foldlM (fun m i => match node.pte i with
        | some e => child e m
        | none => .ok m) m) fun m' => m'.kernelEnd = m.kernelEnd ∧
      ∀ pg, free m' pg = free m pg + ∑ i, (node.pte i).elim 0 fun e => below e pg := by
  let rest (pg : Page) := belowEntries (fun e => below e pg) node
  refine (yields_foldlM (I := fun m' is => m'.kernelEnd = m.kernelEnd ∧
    ∀ pg, free m' pg + rest pg is = free m pg + rest pg (List.finRange 512))
    ?_ ⟨rfl, fun pg => rfl⟩).mono ?_
  · rintro m' i is ⟨kernel, count⟩
    cases here : node.pte i with
    | none =>
      refine yields_ok ⟨kernel, fun pg => ?_⟩
      have all := count pg
      simp only [rest, belowEntries, List.map_cons, here, Option.elim_none, List.sum_cons,
        Nat.zero_add] at all
      exact all
    | some e =>
      refine (each i e here m' kernel).mono ?_
      rintro m'' ⟨kernel', count'⟩
      refine ⟨kernel'.trans kernel, fun pg => ?_⟩
      have all := count pg
      have one := count' pg
      simp only [rest, belowEntries, List.map_cons, here, Option.elim_some,
        List.sum_cons] at all
      simp only [rest, belowEntries]
      omega
  · rintro m' ⟨kernel, count⟩
    refine ⟨kernel, fun pg => ?_⟩
    have all : free m' pg + 0 = free m pg + rest pg (List.finRange 512) := count pg
    have sum : rest pg (List.finRange 512) =
        ∑ i, (node.pte i).elim 0 fun e => below e pg := (Fin.sum_univ_def _).symm
    omega

/-- `freewalk` puts the page of a node and those below it on the free list. -/
theorem freewalk_spec {child : E → Memory → Except Panic Memory} (below : E → Page → Nat)
    {node : Node E} (valid : Valid m node.page)
    (each : ∀ i e, node.pte i = some e → ∀ m', m'.kernelEnd = m.kernelEnd →
      Yields (child e m') fun m'' => m''.kernelEnd = m'.kernelEnd ∧
        ∀ pg, free m'' pg = free m' pg + below e pg) :
    Yields (freewalk child node m) fun m' => m'.kernelEnd = m.kernelEnd ∧
      ∀ pg, free m' pg = free m pg + nodesOf (fun e => below e pg) pg node := by
  refine (freeEntries_spec below each).bind ?_
  rintro m' ⟨kernel, count⟩
  have valid' : Valid m' node.page := by
    rw [Valid, kernel]
    exact valid
  refine (kfree_spec valid').mono ?_
  rintro m'' ⟨kernel', count'⟩
  refine ⟨kernel'.trans kernel, fun pg => ?_⟩
  have all := count pg
  have one := count' pg
  unfold nodesOf
  omega

/-- A table without mappings has none at its lowest level. -/
theorem no_entries (empty : ∀ v < 512 ^ 3, find t v = none) {i j : Fin 512}
    {mid : Node (Node Pte)} {low : Node Pte} (first : t.pte i = some mid)
    (second : mid.pte j = some low) (k : Fin 512) : low.pte k = none := by
  have hi := i.isLt
  have hj := j.isLt
  have hk := k.isLt
  have two : PX 2 ((i.val * 262144 + j.val * 512 + k.val) * PGSIZE) = i := by
    apply Fin.ext
    rw [PX_two]
    omega
  have one : PX 1 ((i.val * 262144 + j.val * 512 + k.val) * PGSIZE) = j := by
    apply Fin.ext
    rw [PX_one]
    omega
  have zero : PX 0 ((i.val * 262144 + j.val * 512 + k.val) * PGSIZE) = k := by
    apply Fin.ext
    rw [PX_zero]
    omega
  have none_ := empty (i.val * 262144 + j.val * 512 + k.val) (by omega)
  rw [find, two, first, Option.bind_some, one, second, Option.bind_some, zero] at none_
  exact none_

theorem freewalk_all (empty : ∀ v < 512 ^ 3, find t v = none)
    (valid : ∀ pg, nodes t pg ≠ 0 → Valid m pg) :
    Yields (freewalk (freewalk (freewalk freeLeaf)) t m) fun m' =>
      m'.kernelEnd = m.kernelEnd ∧ ∀ pg, free m' pg = free m pg + nodes t pg := by
  have same {m' : Memory} (kernel : m'.kernelEnd = m.kernelEnd) (pg : Page)
      (some_ : nodes t pg ≠ 0) : Valid m' pg := by
    rw [Valid, kernel]
    exact valid pg some_
  refine freewalk_spec (fun mid pg => nodesOf (nodesOf (fun _ => 0) pg) pg mid)
    (same rfl _ (Nat.ne_of_gt (page_le t))) fun i mid first m₁ kernel₁ => ?_
  have inMid (pg : Page) : nodesOf (nodesOf (fun _ => 0) pg) pg mid ≤ nodes t pg := below_le first
  refine freewalk_spec (fun low pg => nodesOf (fun _ => 0) pg low)
    (same kernel₁ _ (Nat.ne_of_gt ((page_le mid).trans (inMid _))))
    fun j low second m₂ kernel₂ => ?_
  have inLow (pg : Page) : nodesOf (fun _ => 0) pg low ≤ nodes t pg :=
    (below_le second).trans (inMid pg)
  refine freewalk_spec (fun _ _ => 0)
    (same (kernel₂.trans kernel₁) _ (Nat.ne_of_gt ((page_le low).trans (inLow _))))
    fun k pte third => ?_
  rw [no_entries empty first second k] at third
  cases third

theorem users_none (empty : ∀ v < USER, find t v = none) (pg : Page) : users t pg = 0 := by
  refine Finset.sum_eq_zero fun v hv => ?_
  rw [empty v (Finset.mem_range.mp hv)]
  exact if_neg nofun

/-- With only its user pages left, a table gives back all that it holds. -/
theorem uvmfree_spec {sz : Nat} (small : sz ≤ USER * PGSIZE) (owns : Owns t m)
    (mapped : ∀ v < 512 ^ 3, find t v ≠ none ↔ v < pages sz)
    (readable : ∀ v < 512 ^ 3, ∀ pte, find t v = some pte → pte.perm.r = true) :
    Yields (uvmfree t sz m) fun m' => m'.kernelEnd = m.kernelEnd ∧
      ∀ pg, free m' pg = held t m pg := by
  have within : pages sz ≤ USER := by
    rw [pages_eq small]
    simp only [PGSIZE] at small
    omega
  have cleared : Yields (if 0 < sz then uvmunmap t 0 (PGROUNDUP sz / PGSIZE) true m
      else .ok (t, m)) fun r => (∀ v < 512 ^ 3, find r.1 v = none) ∧ Even t m r.1 r.2 := by
    split
    next some_ =>
      have loop := unmapLoop_spec true (pages sz) (v := 0) (t := t) (m := m)
        (by rw [Nat.zero_add]
            exact (Nat.mul_le_mul_right _ within).trans (by decide))
        (fun w _ below => by
          have far : w < 512 ^ 3 := (by omega : w < USER).trans (by decide)
          obtain ⟨pte, found⟩ := Option.ne_none_iff_exists'.mp ((mapped w far).mpr (by omega))
          exact ⟨pte, found, readable w far pte found⟩)
        fun _ => ⟨by omega, owns⟩
      rw [Nat.zero_mul] at loop
      rw [uvmunmap, if_neg (by simp)]
      refine loop.mono ?_
      rintro r ⟨later, -, -, even⟩
      refine ⟨fun v hv => ?_, even rfl⟩
      rw [later v hv]
      split
      next => rfl
      next out =>
        by_contra some_
        have old := (mapped v hv).mp some_
        omega
    next none_ =>
      refine yields_ok ⟨fun v hv => ?_, .refl t m⟩
      by_contra some_
      have old := (mapped v hv).mp some_
      have zero : sz = 0 := by omega
      rw [zero] at old
      exact absurd old (Nat.not_lt_zero v)
  unfold uvmfree
  refine cleared.bind ?_
  rintro ⟨t', m'⟩ ⟨empty, even⟩
  refine (freewalk_all empty fun pg => (even.owns owns).valid_node).mono ?_
  rintro m'' ⟨kernel, count⟩
  refine ⟨kernel.trans even.kernel, fun pg => ?_⟩
  have all := even.held pg
  have none_ := users_none (t := t') (fun v hv => empty v (hv.trans (by decide))) pg
  rw [count, ← all, held, none_, Nat.add_zero]

theorem map_top {pa : Page} {perm : Perm} (empty : find t v = none) (high : USER ≤ v)
    (low : v * PGSIZE < MAXVA) :
    Yields (mappages t (v * PGSIZE) PGSIZE pa perm m) fun r => Even t m r.2.1 r.2.2 ∧
      ∀ w < 512 ^ 3, find r.2.1 w =
        if r.1 = true ∧ w = v then some ⟨pa, perm⟩ else find t w := by
  refine (mappages_spec empty low).mono ?_
  rintro ⟨ok, t', m'⟩ ⟨kernel, nodes_, same⟩
  refine ⟨⟨kernel, fun pg => ?_⟩, same⟩
  have users_ : users t' pg = users t pg := users_congr
    (fun w hw => by rw [same w (hw.trans (by decide)), if_neg (by omega)]) pg
  have more := nodes_ pg
  simp only [held] at more ⊢
  omega

theorem unmap_top {pte : Pte} (found : find t v = some pte) (readable : pte.perm.r = true)
    (high : USER ≤ v) (low : v * PGSIZE < MAXVA) :
    Yields (uvmunmap t (v * PGSIZE) 1 false m) fun r => Even t m r.1 r.2 ∧
      ∀ w < 512 ^ 3, find r.1 w = if w = v then none else find t w := by
  have loop := unmapLoop_spec false 1 (v := v) (t := t) (m := m)
    (by simp only [PGSIZE, MAXVA] at low ⊢
        omega)
    (fun w from_ below => by
      obtain rfl : w = v := by omega
      exact ⟨pte, found, readable⟩) nofun
  rw [uvmunmap, if_neg (by simp)]
  refine loop.mono ?_
  rintro ⟨t', m'⟩ ⟨later, nodes_, same, -⟩
  obtain rfl := same rfl
  have gone (w : Nat) (hw : w < 512 ^ 3) : find t' w = if w = v then none else find t w := by
    rw [later w hw]
    split_ifs <;> first | rfl | omega
  refine ⟨⟨rfl, fun pg => ?_⟩, gone⟩
  have users_ : users t' pg = users t pg := users_congr
    (fun w hw => by rw [gone w (hw.trans (by decide)), if_neg (by omega)]) pg
  rw [held, held, nodes_, users_]

/-- `uvmclear` of a user page leaves it mapped. -/
theorem uvmclear_spec (shape : Shape t n) (hv : v < n) :
    Yields (uvmclear t (v * PGSIZE) m) fun r => Shape r.1 n ∧ Even t m r.1 r.2 := by
  have user : v < USER := hv.trans_le shape.within
  have far : v < 512 ^ 3 := user.trans (by decide)
  obtain ⟨pte, found⟩ := Option.ne_none_iff_exists'.mp ((shape.mapped v far).mpr (.inl hv))
  have entry := slot_of_find found
  have low : v * PGSIZE < MAXVA := by
    rw [USER_eq] at user
    simp only [PGSIZE, MAXVA]
    omega
  obtain ⟨stored, still⟩ := store_spec
    (e := some { pte with perm := { pte.perm with u := false } })
    (by rw [entry]; exact Option.some_ne_none _) far
  rw [uvmclear, walk_false low, entry]
  refine yields_ok ⟨⟨shape.within, fun w hw => ?_, fun w hw pte' found' => ?_⟩, rfl, fun pg => ?_⟩
  · have old := shape.mapped w hw
    rw [← old, Option.map_some, stored w hw]
    split
    next here =>
      rw [here, found]
      exact iff_of_true (Option.some_ne_none _) (Option.some_ne_none _)
    next => exact Iff.rfl
  · rw [Option.map_some, stored w hw] at found'
    split at found'
    · cases found'
      exact shape.readable v far pte found
    · exact shape.readable w hw pte' found'
  · have change := users_change user stored pg
    rw [found] at change
    simp only [Option.map_some, Option.some.injEq] at change
    simp only [held, Option.map_some, still]
    omega

end PagetableCalls
