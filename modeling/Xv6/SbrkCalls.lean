import Xv6.PageContents
import Xv6.MemoryAccounts

/-!
# What sbrk does to a process

`sys_sbrk` with the bytes of the pages. No page that is not free changes unless it is
freed, so the user pages below both sizes stay, and a new one has zeros.
-/

namespace SbrkCalls
open Function Outcomes PagetableViews PagetableCalls PageContents
open Pagetables hiding kalloc kfree descend walk mapLoop mappages unmapLoop uvmunmap uvmdealloc
  allocLoop uvmalloc

attribute [local irreducible] users nodes

variable {E A : Type} {t t' : Pagetable} {r r' : Ram} {m : Memory} {pg mem : Page} {k n v : Nat}

theorem yields_map {F B : Type} {x : Except F A} {f : A → B} {P : B → Prop}
    (h : Yields (x.map f) P) : Yields x fun a => P (f a) := by
  obtain ⟨b, same, holds⟩ := h
  obtain ⟨a, rfl, rfl⟩ := map_eq_ok.mp same
  exact yields_ok holds

theorem yields_and {F : Type} {x : Except F A} {P Q : A → Prop} (h : Yields x P)
    (more : ∀ a, x = .ok a → Q a) : Yields x fun a => P a ∧ Q a := by
  obtain ⟨a, rfl, holds⟩ := h
  exact yields_ok ⟨holds, more a rfl⟩

/-- A page that is not free stays so, with its bytes. -/
def Keeps (pg : Page) (r r' : Ram) : Prop :=
  pg ∉ r.memory.freelist → pg ∉ r'.memory.freelist ∧ r'.data pg = r.data pg

theorem Keeps.refl (pg : Page) (r : Ram) : Keeps pg r r := fun used => ⟨used, rfl⟩

theorem Keeps.trans {r'' : Ram} (first : Keeps pg r r') (next : Keeps pg r' r'') :
    Keeps pg r r'' := by
  intro used
  obtain ⟨used', same⟩ := first used
  obtain ⟨used'', same'⟩ := next used'
  exact ⟨used'', same'.trans same⟩

theorem keeps_memset (c : BitVec 8) (other : mem ≠ pg) : Keeps pg r (memset r mem c) :=
  fun used => ⟨used, update_of_ne other.symm _ _⟩

theorem not_free_iff : pg ∉ m.freelist ↔ free m pg = 0 := List.count_eq_zero.symm

theorem keeps_memory {m' : Memory} (less : free m' pg ≤ free r.memory pg) :
    Keeps pg r { r with memory := m' } := by
  intro used
  rw [not_free_iff] at used
  exact ⟨not_free_iff.mpr (Nat.le_zero.mp (used ▸ less)), rfl⟩

theorem kalloc_forgets (r : Ram) :
    ((kalloc r).1, (kalloc r).2.memory) = Pagetables.kalloc r.memory := by
  unfold kalloc
  split
  next here => exact here.symm
  next here => exact here.symm

theorem fresh (taken : kalloc r = (some mem, r')) (used : pg ∉ r.memory.freelist) : mem ≠ pg := by
  rintro rfl
  have forgets := kalloc_forgets r
  have count := (kalloc_spec r.memory).2 mem
  rw [← forgets, taken, not_free_iff.mp used, if_pos rfl] at count
  exact absurd count (Nat.zero_ne_add_one _)

theorem kalloc_keeps (pg : Page) (r : Ram) : Keeps pg r (kalloc r).2 := by
  intro used
  have less (m' : Memory) (page : Option Page) (h : Pagetables.kalloc r.memory = (page, m')) :
      Keeps pg r { r with memory := m' } := by
    refine keeps_memory ?_
    have count := (kalloc_spec r.memory).2 pg
    rw [h] at count
    simp only at count
    omega
  cases result : kalloc r with
  | mk page r' =>
    have here := result
    unfold kalloc at here
    split at here
    next m' h =>
      obtain ⟨-, rfl⟩ := Prod.mk.inj here
      exact less m' none h used
    next page' m' h =>
      obtain ⟨rfl, rfl⟩ := Prod.mk.inj here
      exact (less m' _ h).trans (keeps_memset 5 (fresh result used)) used

/-- A page that `kalloc` gave out is filled. -/
theorem filled_keeps (taken : kalloc r = (some mem, r')) (c : BitVec 8) (pg : Page) :
    Keeps pg r (memset r' mem c) := by
  intro used
  have kept := kalloc_keeps pg r
  rw [taken] at kept
  exact kept.trans (keeps_memset c (fresh taken used)) used

theorem kfree_ok {pa : Page} (h : kfree pa r = .ok r') :
    Pagetables.kfree pa r.memory = .ok r'.memory ∧
      r' = memset { r with memory := r'.memory } pa 1 := by
  obtain ⟨m, freed, h⟩ := bind_eq_ok.mp h
  obtain rfl := Except.ok.inj h
  exact ⟨freed, rfl⟩

theorem kfree_keeps {pa : Page} (h : kfree pa r = .ok r') (other : pa ≠ pg) : Keeps pg r r' := by
  obtain ⟨freed, eq⟩ := kfree_ok h
  rw [eq]
  refine Keeps.trans (keeps_memory ?_) (keeps_memset 1 other)
  unfold Pagetables.kfree at freed
  split at freed
  · cases freed
  · rw [← Except.ok.inj freed]
    exact (List.count_cons_of_ne other).le

/-- The result without the bytes. -/
def forget (x : A × Pagetable × Ram) : A × Pagetable × Memory := (x.1, x.2.1, x.2.2.memory)

theorem descend_forgets (alloc : Bool) (pte : Option (Node E)) (r : Ram) :
    ((descend alloc pte r).1, (descend alloc pte r).2.memory) =
      Pagetables.descend alloc pte r.memory := by
  cases pte with
  | some child => rfl
  | none =>
    cases alloc with
    | false => rfl
    | true =>
      simp only [descend, Pagetables.descend, if_true, ← kalloc_forgets r]
      cases kalloc r with
      | mk page r' => cases page <;> rfl

theorem descend_keeps (alloc : Bool) (pte : Option (Node E)) (r : Ram) (pg : Page) :
    Keeps pg r (descend alloc pte r).2 := by
  cases pte with
  | some child => exact .refl pg r
  | none =>
    cases alloc with
    | false => exact .refl pg r
    | true =>
      simp only [descend, if_true]
      cases taken : kalloc r with
      | mk page r' =>
        cases page with
        | none =>
          have kept := kalloc_keeps pg r
          rw [taken] at kept
          exact kept
        | some page => exact filled_keeps taken 0 pg

theorem walk_forgets (t : Pagetable) (va : Nat) (alloc : Bool) (r : Ram) :
    (walk t va alloc r).map forget = Pagetables.walk t va alloc r.memory := by
  unfold walk Pagetables.walk
  split
  · rfl
  · rw [← descend_forgets]
    cases descend alloc (t.pte (PX 2 va)) r with
    | mk mid r₁ =>
      cases mid with
      | none => rfl
      | some mid =>
        simp only
        rw [← descend_forgets]
        cases descend alloc (mid.pte (PX 1 va)) r₁ with
        | mk low r₂ => cases low <;> rfl

theorem walk_keeps {va : Nat} {alloc : Bool} {x : Option (Option Pte) × Pagetable × Ram}
    (h : walk t va alloc r = .ok x) (pg : Page) : Keeps pg r x.2.2 := by
  unfold walk at h
  split at h
  · cases h
  · have first := descend_keeps alloc (t.pte (PX 2 va)) r pg
    generalize descend alloc (t.pte (PX 2 va)) r = found at first h
    obtain ⟨mid, r₁⟩ := found
    cases mid with
    | none =>
      obtain rfl := Except.ok.inj h
      exact first
    | some mid =>
      simp only at h
      have second := descend_keeps alloc (mid.pte (PX 1 va)) r₁ pg
      generalize descend alloc (mid.pte (PX 1 va)) r₁ = found at second h
      obtain ⟨low, r₂⟩ := found
      cases low with
      | none =>
        obtain rfl := Except.ok.inj h
        exact first.trans second
      | some low =>
        obtain rfl := Except.ok.inj h
        exact first.trans second

/-- What `walk` does with the bytes there, if it is done without them. -/
theorem walk_cases (t : Pagetable) (va : Nat) (alloc : Bool) (r : Ram) :
    (∃ panic, walk t va alloc r = .error panic ∧
      Pagetables.walk t va alloc r.memory = .error panic) ∨
    ∃ e t' r', walk t va alloc r = .ok (e, t', r') ∧
      Pagetables.walk t va alloc r.memory = .ok (e, t', r'.memory) := by
  rw [← walk_forgets]
  cases walk t va alloc r with
  | error panic => exact .inl ⟨panic, rfl, rfl⟩
  | ok x => exact .inr ⟨x.1, x.2.1, x.2.2, rfl, rfl⟩

theorem mapLoop_forgets {perm : Perm} {last : Nat} (rounds a : Nat) (pa : Page) (t : Pagetable)
    (r : Ram) : (mapLoop perm last rounds a pa t r).map forget =
      Pagetables.mapLoop perm last rounds a pa t r.memory := by
  induction rounds generalizing a pa t r with
  | zero => rfl
  | succ rounds ih =>
    rw [mapLoop, Pagetables.mapLoop]
    rcases walk_cases t a true r with ⟨panic, one, two⟩ | ⟨e, t', r', one, two⟩
    · rw [one, two]
      rfl
    · rw [one, two]
      simp only [Bind.bind, Except.bind]
      rcases e with _ | _ | pte
      · rfl
      · simp only
        split
        · rfl
        · exact ih _ _ _ _
      · rfl

theorem mapLoop_keeps {perm : Perm} {last : Nat} {rounds a : Nat} {pa : Page} {t : Pagetable}
    {r : Ram} {x : Bool × Pagetable × Ram} (h : mapLoop perm last rounds a pa t r = .ok x)
    (pg : Page) : Keeps pg r x.2.2 := by
  induction rounds generalizing a pa t r with
  | zero =>
    obtain rfl := Except.ok.inj h
    exact .refl pg r
  | succ rounds ih =>
    rw [mapLoop] at h
    obtain ⟨⟨e, t', r'⟩, walked, h⟩ := bind_eq_ok.mp h
    have kept := walk_keeps walked pg
    rcases e with _ | _ | pte
    · obtain rfl := Except.ok.inj h
      exact kept
    · simp only at h
      split at h
      · obtain rfl := Except.ok.inj h
        exact kept
      · exact kept.trans (ih h)
    · cases h

theorem mappages_forgets (t : Pagetable) (va size : Nat) (pa : Page) (perm : Perm) (r : Ram) :
    (mappages t va size pa perm r).map forget =
      Pagetables.mappages t va size pa perm r.memory := by
  unfold mappages Pagetables.mappages
  split
  · rfl
  · exact mapLoop_forgets ..

theorem mappages_keeps {va size : Nat} {pa : Page} {perm : Perm} {x : Bool × Pagetable × Ram}
    (h : mappages t va size pa perm r = .ok x) (pg : Page) : Keeps pg r x.2.2 := by
  unfold mappages at h
  split at h
  · cases h
  · exact mapLoop_keeps h pg

/-- The result of `uvmunmap` without the bytes. -/
def forgetPair (x : Pagetable × Ram) : Pagetable × Memory := (x.1, x.2.memory)

theorem kfree_cases (pa : Page) (r : Ram) :
    (∃ panic, kfree pa r = .error panic ∧ Pagetables.kfree pa r.memory = .error panic) ∨
    ∃ r', kfree pa r = .ok r' ∧ Pagetables.kfree pa r.memory = .ok r'.memory := by
  unfold kfree
  cases Pagetables.kfree pa r.memory with
  | error panic => exact .inl ⟨panic, rfl, rfl⟩
  | ok m => exact .inr ⟨_, rfl, rfl⟩

theorem unmapLoop_forgets (npages a : Nat) (t : Pagetable) (r : Ram) :
    (unmapLoop true npages a t r).map forgetPair =
      Pagetables.unmapLoop true npages a t r.memory := by
  induction npages generalizing a t r with
  | zero => rfl
  | succ npages ih =>
    rw [unmapLoop, Pagetables.unmapLoop]
    rcases walk_cases t a false r with ⟨panic, one, two⟩ | ⟨e, t', r', one, two⟩
    · rw [one, two]
      rfl
    · rw [one, two]
      simp only [Bind.bind, Except.bind]
      rcases e with _ | _ | pte
      · rfl
      · rfl
      · simp only [if_true]
        split
        · rfl
        · rcases kfree_cases pte.pa r' with ⟨panic, one, two⟩ | ⟨r₂, one, two⟩
          · rw [one, two]
            rfl
          · rw [one, two]
            exact ih _ _ _

/-- A page that none of the addresses maps to is not freed. -/
theorem unmapLoop_keeps {npages : Nat} {x : Pagetable × Ram}
    (high : (v + npages) * PGSIZE ≤ MAXVA)
    (h : unmapLoop true npages (v * PGSIZE) t r = .ok x)
    (away : ∀ w, v ≤ w → w < v + npages → ∀ pte, find t w = some pte → pte.pa ≠ pg) :
    Keeps pg r x.2 := by
  induction npages generalizing v t r with
  | zero =>
    obtain rfl := Except.ok.inj h
    exact .refl pg r
  | succ npages ih =>
    have low : v * PGSIZE < MAXVA := by
      simp only [PGSIZE, MAXVA] at high ⊢
      omega
    have small : v < 512 ^ 3 := by
      simp only [PGSIZE, MAXVA] at low
      omega
    rw [unmapLoop] at h
    obtain ⟨⟨e, t', r'⟩, walked, h⟩ := bind_eq_ok.mp h
    have forgets := walk_forgets t (v * PGSIZE) false r
    rw [walked, walk_false low] at forgets
    obtain ⟨entry, rfl, -⟩ : e = slot t (v * PGSIZE) ∧ t' = t ∧ r'.memory = r.memory := by
      simpa only [Except.map, forget, Except.ok.injEq, Prod.mk.injEq] using forgets
    have kept := walk_keeps walked pg
    rcases e with _ | _ | pte
    · cases h
    · cases h
    · simp only [if_true] at h
      split at h
      · cases h
      · obtain ⟨r₂, freed, h⟩ := bind_eq_ok.mp h
        have found := find_of_slot entry.symm
        have other := away v le_rfl (by omega) pte found
        have next : v * PGSIZE + PGSIZE = (v + 1) * PGSIZE := by
          rw [Nat.add_mul, Nat.one_mul]
        have shifted : v + 1 + npages = v + (npages + 1) := by omega
        rw [next] at h
        refine (kept.trans (kfree_keeps freed other)).trans (ih ?_ h ?_)
        · exact (congrArg (· * PGSIZE) shifted).trans_le high
        · intro w from_ below pte' there
          have stored := (store_spec (e := none) (by rw [← entry]; exact Option.some_ne_none _)
            small).1
          have far : w < 512 ^ 3 := by
            simp only [PGSIZE, MAXVA] at high
            omega
          rw [stored w far, if_neg (by omega)] at there
          exact away w (by omega) (by omega) pte' there

/-- The mappings below `n` and from `USER` on stay, the former with what is in their pages. -/
structure Survives (n : Nat) (t t' : Pagetable) (r r' : Ram) : Prop where
  finds : ∀ w < 512 ^ 3, w < n ∨ USER ≤ w → find t' w = find t w
  keeps : ∀ w < n, ∀ pte, find t w = some pte → Keeps pte.pa r r'

theorem Survives.refl (n : Nat) (t : Pagetable) (r : Ram) : Survives n t t r r :=
  ⟨fun _ _ _ => rfl, fun _ _ pte _ => .refl pte.pa r⟩

theorem Survives.trans {t'' : Pagetable} {r'' : Ram} (within : n ≤ USER)
    (first : Survives n t t' r r') (next : Survives n t' t'' r' r'') :
    Survives n t t'' r r'' := by
  refine ⟨fun w hw stays => (next.finds w hw stays).trans (first.finds w hw stays),
    fun w below pte there => (first.keeps w below pte there).trans (next.keeps w below pte ?_)⟩
  have hw : w < 512 ^ 3 := (below.trans_le within).trans (by decide)
  exact (first.finds w hw (.inl below)).trans there

theorem Survives.fewer (all : Survives n t t' r r') (le : k ≤ n) : Survives k t t' r r' :=
  ⟨fun w hw stays => all.finds w hw (stays.imp_left fun below => below.trans_le le),
    fun w below => all.keeps w (below.trans_le le)⟩

theorem uvmunmap_spec (shape : Shape t n) (owns : Owns t r.memory) (le : k ≤ n) :
    Yields (uvmunmap t (k * PGSIZE) (n - k) true r) fun x =>
      Shape x.1 k ∧ Even t r.memory x.1 x.2.memory ∧ Survives k t x.1 r x.2 := by
  have within := shape.within
  have aligned : ¬ k * PGSIZE % PGSIZE ≠ 0 := by simp
  have last := unmap_last shape owns le
  rw [Pagetables.uvmunmap, if_neg aligned, ← unmapLoop_forgets] at last
  rw [uvmunmap, if_neg aligned]
  have keeps (x : Pagetable × Ram) (done : unmapLoop true (n - k) (k * PGSIZE) t r = .ok x) :
      ∀ w < k, ∀ pte, find t w = some pte → Keeps pte.pa r x.2 := by
    intro w below pte there
    refine unmapLoop_keeps ?_ done fun v from_ below' pte' there' same => ?_
    · rw [Nat.add_sub_cancel' le]
      exact (Nat.mul_le_mul_right _ within).trans (by decide)
    · have equal := owns.distinct (by omega) (by omega) there there' same.symm
      omega
  refine (yields_and (yields_map last) keeps).mono ?_
  rintro x ⟨⟨shape', even, same⟩, kept⟩
  exact ⟨shape', even, fun w hw stays => same w hw (stays.imp_right within.trans), kept⟩

theorem uvmdealloc_spec {oldsz : Nat} (newsz : Nat) (shape : Shape t (pages oldsz))
    (owns : Owns t r.memory) (small : oldsz ≤ USER * PGSIZE) :
    Yields (uvmdealloc t oldsz newsz r) fun x => x.1 = min oldsz newsz ∧
      Shape x.2.1 (pages (min oldsz newsz)) ∧ Even t r.memory x.2.1 x.2.2.memory ∧
      Survives (pages (min oldsz newsz)) t x.2.1 r x.2.2 := by
  unfold uvmdealloc
  split
  next le =>
    rw [min_eq_left le]
    exact yields_ok ⟨rfl, shape, .refl t r.memory, .refl _ t r⟩
  next less =>
    have le : newsz ≤ oldsz := Nat.le_of_not_le less
    have low := le.trans small
    rw [min_eq_right le]
    rw [pages_eq small] at shape
    rw [PGROUNDUP_eq low, PGROUNDUP_eq small, pages_eq low]
    split
    next fewer =>
      have span : ((oldsz + 4095) / 4096 * PGSIZE - (newsz + 4095) / 4096 * PGSIZE) / PGSIZE =
          (oldsz + 4095) / 4096 - (newsz + 4095) / 4096 := by
        rw [← Nat.sub_mul]
        exact Nat.mul_div_cancel _ (by decide)
      rw [span]
      refine (uvmunmap_spec shape owns (by omega)).bind ?_
      rintro ⟨t', r'⟩ ⟨shape', even, stay⟩
      exact yields_ok ⟨rfl, shape', even, stay⟩
    next same =>
      have equal : (newsz + 4095) / 4096 = (oldsz + 4095) / 4096 := by
        simp only [PGSIZE] at same
        omega
      rw [equal]
      exact yields_ok ⟨rfl, shape, .refl t r.memory, .refl _ t r⟩

/-- What `uvmalloc` does when it fails. -/
theorem undo_spec (shape : Shape t k) (owns : Owns t r.memory) (le : n ≤ k) :
    Yields (uvmdealloc t (k * PGSIZE) (n * PGSIZE) r) fun x =>
      Shape x.2.1 n ∧ Even t r.memory x.2.1 x.2.2.memory ∧ Survives n t x.2.1 r x.2.2 := by
  have within := shape.within
  have less := min_eq_right (Nat.mul_le_mul_right PGSIZE le)
  rw [← pages_mul within] at shape
  refine (uvmdealloc_spec _ shape owns (Nat.mul_le_mul_right _ within)).mono ?_
  rintro x ⟨-, shape', even, stay⟩
  rw [less, pages_mul (le.trans within)] at shape' stay
  exact ⟨shape', even, stay⟩

theorem kalloc_cases (r : Ram) :
    (∃ r', kalloc r = (none, r') ∧ Pagetables.kalloc r.memory = (none, r'.memory)) ∨
    ∃ mem r', kalloc r = (some mem, r') ∧ Pagetables.kalloc r.memory = (some mem, r'.memory) := by
  rw [← kalloc_forgets]
  cases kalloc r with
  | mk page r' =>
    cases page with
    | none => exact .inl ⟨r', rfl, rfl⟩
    | some mem => exact .inr ⟨mem, r', rfl, rfl⟩

/-- The mapping of a new page has zeros, or the page goes back. -/
theorem map_user_spec {perm : Perm} (shape : Shape t k) (owns : Owns t r.memory)
    (readable : perm.r = true) (taken : kalloc r = (some mem, r')) :
    Yields (mappages t (k * PGSIZE) PGSIZE mem perm (memset r' mem 0)) fun x =>
      Survives k t x.2.1 r x.2.2 ∧
      (x.1 = true → Shape x.2.1 (k + 1) ∧ Even t r.memory x.2.1 x.2.2.memory ∧
        ∃ pte, find x.2.1 k = some pte ∧ x.2.2.data pte.pa = fun _ => 0) ∧
      (x.1 = false → Shape x.2.1 k ∧ Yields (kfree mem x.2.2) fun r'' =>
        Even t r.memory x.2.1 r''.memory ∧ Survives k t x.2.1 r r'') := by
  have below : k < USER := (shape.few owns).trans_lt (by decide)
  have small : k < 512 ^ 3 := below.trans_le (by decide)
  have forgets := kalloc_forgets r
  rw [taken] at forgets
  have used : mem ∉ r'.memory.freelist := by
    have count := (kalloc_spec r.memory).2 mem
    rw [← forgets, if_pos rfl] at count
    simp only at count
    have once := (owns mem).trans (ram_le_one _ _)
    rw [not_free_iff]
    simp only [held] at once
    omega
  have empty : find t k = none := by
    by_contra some_
    have old := (shape.mapped k small).mp some_
    omega
  have low : k * PGSIZE < MAXVA := by
    simp only [PGSIZE, MAXVA]
    rw [USER_eq] at below
    omega
  have filled (pg : Page) := filled_keeps taken 0 pg
  have account := map_user shape owns readable forgets.symm
  have both := yields_and account fun x done => (mappages_spec empty low).of_ok done
  have forgotten := mappages_forgets t (k * PGSIZE) PGSIZE mem perm (memset r' mem 0)
  change _ = Pagetables.mappages t (k * PGSIZE) PGSIZE mem perm r'.memory at forgotten
  rw [← forgotten] at both
  refine (yields_and (yields_map both) fun x done pg => mappages_keeps done pg).mono ?_
  rintro ⟨ok, t', r₂⟩ ⟨⟨⟨fine, failed⟩, -, -, same⟩, kept⟩
  simp only [forget] at fine failed same kept ⊢
  have stays (w : Nat) (hw : w < 512 ^ 3) (other : w < k ∨ USER ≤ w) : find t' w = find t w := by
    refine (same w hw).trans (if_neg fun here => ?_)
    omega
  have survive : Survives k t t' r r₂ :=
    ⟨stays, fun w under pte there => (filled pte.pa).trans (kept pte.pa)⟩
  refine ⟨survive, fun ok_ => ?_, fun ok_ => ?_⟩
  · obtain ⟨shape', even⟩ := fine ok_
    refine ⟨shape', even, ⟨mem, perm⟩, ?_, ?_⟩
    · exact (same k small).trans (if_pos ⟨ok_, rfl⟩)
    · exact ((kept mem) used).2.trans (update_self ..)
  · obtain ⟨shape', freed⟩ := failed ok_
    refine ⟨shape', ?_⟩
    have freed : Yields (kfree mem r₂) fun r₃ => Even t r.memory t' r₃.memory :=
      freed.bind fun m'' even => yields_ok even
    have kept (r₃ : Ram) (done : kfree mem r₂ = .ok r₃) (pg : Page) (other : mem ≠ pg) :
        Keeps pg r₂ r₃ := kfree_keeps done other
    refine (yields_and freed kept).mono ?_
    rintro r₃ ⟨even, kept'⟩
    refine ⟨even, stays, fun w under pte there unused => ?_⟩
    exact ((survive.keeps w under pte there).trans (kept' pte.pa (fresh taken unused))) unused

/-- New pages have zeros. -/
def Zeros (n k : Nat) (t : Pagetable) (r : Ram) : Prop :=
  ∀ w, n ≤ w → w < k → ∀ pte, find t w = some pte → r.data pte.pa = fun _ => 0

theorem Owns.used {pte : Pte} (owns : Owns t m) (hv : v < USER) (there : find t v = some pte) :
    pte.pa ∉ m.freelist := by
  have le := users_pos hv there
  have once := (owns pte.pa).trans (ram_le_one _ _)
  rw [not_free_iff]
  simp only [held] at once
  omega

theorem allocLoop_spec {newsz : Nat} {xperm : Perm} (rounds : Nat) {k : Nat} {t : Pagetable}
    {r : Ram} (shape : Shape t k) (owns : Owns t r.memory) (from_ : n ≤ k)
    (upTo : k ≤ (newsz + 4095) / 4096) (enough : newsz < (k + rounds) * PGSIZE)
    (zeros : Zeros n k t r) :
    Yields (allocLoop (n * PGSIZE) newsz xperm rounds (k * PGSIZE) t r) fun x =>
      Even t r.memory x.2.1 x.2.2.memory ∧ Survives n t x.2.1 r x.2.2 ∧
      ((x.1 = 0 ∧ Shape x.2.1 n) ∨ (x.1 = newsz ∧ newsz ≤ USER * PGSIZE ∧
        Shape x.2.1 (pages newsz) ∧ Zeros n (pages newsz) x.2.1 x.2.2)) := by
  have done {k : Nat} {t : Pagetable} {r : Ram} (shape : Shape t k)
      (upTo : k ≤ (newsz + 4095) / 4096) (over_ : newsz ≤ k * PGSIZE) (zeros : Zeros n k t r) :
      newsz ≤ USER * PGSIZE ∧ Shape t (pages newsz) ∧ Zeros n (pages newsz) t r := by
    have small := over_.trans (Nat.mul_le_mul_right _ shape.within)
    have all : k = (newsz + 4095) / 4096 := by
      simp only [PGSIZE] at over_
      omega
    rw [pages_eq small, ← all]
    exact ⟨small, shape, zeros⟩
  induction rounds generalizing k t r with
  | zero =>
    exact yields_ok ⟨.refl t r.memory, .refl n t r, .inr ⟨rfl, done shape upTo enough.le zeros⟩⟩
  | succ rounds ih =>
    unfold allocLoop
    split
    next less =>
      rcases kalloc_cases r with ⟨r₁, taken, forgets⟩ | ⟨mem, r₁, taken, forgets⟩
      · rw [taken]
        have even : Even t r.memory t r₁.memory := kalloc_none forgets
        have kept (pg : Page) : Keeps pg r r₁ := by
          have kept := kalloc_keeps pg r
          rwa [taken] at kept
        refine (undo_spec shape (even.owns owns) from_).bind ?_
        rintro ⟨x, t', r'⟩ ⟨shape', even', stay⟩
        refine yields_ok ⟨even.trans even', ⟨stay.finds, fun w below pte there => ?_⟩,
          .inl ⟨rfl, shape'⟩⟩
        exact (kept pte.pa).trans (stay.keeps w below pte there)
      · rw [taken]
        refine (map_user_spec shape owns rfl taken).bind ?_
        rintro ⟨ok, t', r'⟩ ⟨stay, fine, failed⟩
        cases ok with
        | false =>
          obtain ⟨shape', freed⟩ := failed rfl
          refine freed.bind ?_
          rintro r'' ⟨even, stay'⟩
          refine (undo_spec shape' (even.owns owns) from_).bind ?_
          rintro ⟨x, t₂, r₂⟩ ⟨shape₂, even₂, stay₂⟩
          exact yields_ok ⟨even.trans even₂, (stay'.fewer from_).trans shape₂.within stay₂,
            .inl ⟨rfl, shape₂⟩⟩
        | true =>
          obtain ⟨shape', even, pte, there, zero⟩ := fine rfl
          have few := shape'.few (even.owns owns)
          have next : (k * PGSIZE + PGSIZE) % 2 ^ 64 = (k + 1) * PGSIZE := by
            simp only [PGSIZE, PHYSTOP] at few ⊢
            omega
          have zeros' : Zeros n (k + 1) t' r' := by
            intro w above below pte' there'
            rcases Nat.lt_or_eq_of_le (Nat.lt_succ_iff.mp below) with under | rfl
            · have within := shape.within
              have user : w < USER := under.trans_le shape.within
              have found := stay.finds w (user.trans (by decide)) (.inl under)
              rw [there'] at found
              have used := Owns.used owns user found.symm
              exact ((stay.keeps w under pte' found.symm) used).2.trans
                (zeros w above under pte' found.symm)
            · obtain rfl := Option.some.inj (there.symm.trans there')
              exact zero
          simp only [next]
          refine (ih shape' (even.owns owns) (by omega) ?_ ?_ zeros').mono ?_
          · simp only [PGSIZE] at less
            omega
          · rwa [Nat.add_assoc, Nat.add_comm 1]
          · rintro x ⟨later, stay', result⟩
            have within := from_.trans shape.within
            exact ⟨even.trans later, (stay.fewer from_).trans within stay', result⟩
    next over_ =>
      exact yields_ok ⟨.refl t r.memory, .refl n t r,
        .inr ⟨rfl, done shape upTo (Nat.le_of_not_lt over_) zeros⟩⟩

/-- `uvmalloc` returns the new size and zeros in the new pages, or 0. -/
theorem uvmalloc_spec {oldsz newsz : Nat} (xperm : Perm) (shape : Shape t (pages oldsz))
    (owns : Owns t r.memory) (small : oldsz ≤ USER * PGSIZE) (le : oldsz ≤ newsz) :
    Yields (uvmalloc t oldsz newsz xperm r) fun x =>
      Survives (pages oldsz) t x.2.1 r x.2.2 ∧
      ((x.1 = 0 ∧ Shape x.2.1 (pages oldsz)) ∨ (x.1 = newsz ∧ newsz ≤ USER * PGSIZE ∧
        Shape x.2.1 (pages newsz) ∧ Zeros (pages oldsz) (pages newsz) x.2.1 x.2.2)) := by
  rw [uvmalloc, if_neg (Nat.not_lt_of_le le)]
  rw [pages_eq small] at shape ⊢
  simp only [PGROUNDUP_eq small]
  refine (allocLoop_spec _ shape owns le_rfl (by omega) ?_ ?_).mono fun x result => result.2
  · simp only [PGSIZE]
    omega
  · exact fun w above below => absurd below (Nat.not_lt_of_le above)

theorem grown_up {sz : Nat} {n : BitVec 32} (small : sz ≤ USER * PGSIZE)
    (enough : 0 ≤ (sz : Int) + n.toInt) : (ProcessMemory.grown sz n : Int) = sz + n.toInt := by
  have high := BitVec.toInt_lt (x := n)
  have limit : sz < 2 ^ 40 := small.trans_lt (by decide)
  rw [ProcessMemory.grown, Int.toNat_of_nonneg (Int.emod_nonneg _ (by decide)),
    Int.emod_eq_of_lt enough (by omega)]

/-- A size that would be negative is taken for a large one. -/
theorem grown_wraps {sz : Nat} {n : BitVec 32} (small : sz ≤ USER * PGSIZE)
    (below : (sz : Int) + n.toInt < 0) : sz ≤ ProcessMemory.grown sz n := by
  have low := BitVec.le_toInt (x := n)
  have limit : sz < 2 ^ 40 := small.trans_lt (by decide)
  rw [ProcessMemory.grown]
  omega

/-- `sbrk` returns -1 and nothing is different, or it returns the old size, the size is the
sum, exactly the pages up to the new size are mapped, those that were there before have
what they had and the others have zeros. -/
def Serves (x : Proc) (n : BitVec 32) (r : Ram) (result : Int) (y : Proc) (r' : Ram) : Prop :=
  (result = -1 ∧ y.sz = x.sz ∧ (∀ v < 512 ^ 3, find y.pagetable v = find x.pagetable v) ∧
    ∀ v < USER, ∀ pte, find x.pagetable v = some pte → r'.data pte.pa = r.data pte.pa) ∨
  (result = x.sz ∧ (y.sz : Int) = x.sz + n.toInt ∧
    (∀ v < USER, find y.pagetable v ≠ none ↔ v * PGSIZE < PGROUNDUP y.sz) ∧
    ∀ v < USER, ∀ pte, find y.pagetable v = some pte →
      if v * PGSIZE < PGROUNDUP x.sz then
        find x.pagetable v = some pte ∧ r'.data pte.pa = r.data pte.pa
      else r'.data pte.pa = fun _ => 0)

variable {x : Proc}

theorem Shape.user (shape : Shape t n) (hv : v < USER) : find t v ≠ none ↔ v < n := by
  rw [shape.mapped v (hv.trans (by decide))]
  omega

theorem below_iff {sz : Nat} (small : sz ≤ USER * PGSIZE) :
    v * PGSIZE < PGROUNDUP sz ↔ v < pages sz := by
  rw [PGROUNDUP_eq small, ← pages_eq small]
  exact Nat.mul_lt_mul_right (by decide)

theorem serves_shrunk {n : BitVec 32} {sz : Nat} (shape : Shape x.pagetable (pages x.sz))
    (owns : Owns x.pagetable r.memory) (small : x.sz ≤ USER * PGSIZE) (le : sz ≤ x.sz)
    (size : (sz : Int) = x.sz + n.toInt) (shape' : Shape t' (pages sz))
    (stay : Survives (pages sz) x.pagetable t' r r') :
    Serves x n r x.sz ⟨sz, t'⟩ r' := by
  refine .inr ⟨rfl, size, fun v hv => ?_, fun v hv pte there => ?_⟩
  · rw [below_iff (le.trans small)]
    exact Shape.user shape' hv
  · have under := (Shape.user shape' hv).mp (by rw [there]; exact Option.some_ne_none _)
    have found := stay.finds v (hv.trans (by decide)) (.inl under)
    rw [there] at found
    have more : v < pages x.sz :=
      (Shape.user shape hv).mp (by rw [← found]; exact Option.some_ne_none _)
    rw [if_pos ((below_iff small).mpr more)]
    exact ⟨found.symm, (stay.keeps v under pte found.symm (Owns.used owns hv found.symm)).2⟩

theorem serves_grown {n : BitVec 32} {sz : Nat} (owns : Owns x.pagetable r.memory)
    (small : x.sz ≤ USER * PGSIZE) (small' : sz ≤ USER * PGSIZE)
    (size : (sz : Int) = x.sz + n.toInt)
    (shape' : Shape t' (pages sz)) (stay : Survives (pages x.sz) x.pagetable t' r r')
    (zeros : Zeros (pages x.sz) (pages sz) t' r') : Serves x n r x.sz ⟨sz, t'⟩ r' := by
  refine .inr ⟨rfl, size, fun v hv => ?_, fun v hv pte there => ?_⟩
  · rw [below_iff small']
    exact Shape.user shape' hv
  · have under := (Shape.user shape' hv).mp (by rw [there]; exact Option.some_ne_none _)
    simp only [below_iff small]
    split
    next old =>
      have found := stay.finds v (hv.trans (by decide)) (.inl old)
      rw [there] at found
      exact ⟨found.symm, (stay.keeps v old pte found.symm (Owns.used owns hv found.symm)).2⟩
    next new => exact zeros v (Nat.le_of_not_lt new) under pte there

theorem serves_failed {n : BitVec 32} (shape : Shape x.pagetable (pages x.sz))
    (owns : Owns x.pagetable r.memory) (shape' : Shape t' (pages x.sz))
    (stay : Survives (pages x.sz) x.pagetable t' r r') :
    Serves x n r (-1) { x with pagetable := t' } r' := by
  refine .inl ⟨rfl, rfl, fun v hv => ?_, fun v hv pte there => ?_⟩
  · by_cases kept : v < pages x.sz ∨ USER ≤ v
    · exact stay.finds v hv kept
    · obtain ⟨over_, user⟩ := not_or.mp kept
      have gone (t : Pagetable) (shape : Shape t (pages x.sz)) : find t v = none :=
        not_not.mp fun some_ => over_ ((Shape.user shape (Nat.lt_of_not_le user)).mp some_)
      exact (gone t' shape').trans (gone x.pagetable shape).symm
  · have under := (Shape.user shape hv).mp (by rw [there]; exact Option.some_ne_none _)
    exact (stay.keeps v under pte there (Owns.used owns hv there)).2

theorem sbrk_grows {n : BitVec 32} (shape : Shape x.pagetable (pages x.sz))
    (owns : Owns x.pagetable r.memory) (small : x.sz ≤ USER * PGSIZE) (more : 0 < n.toInt) :
    Yields (sys_sbrk x n r) fun y => Serves x n r y.1 y.2.1 y.2.2 := by
  have size := grown_up small (by omega : 0 ≤ (x.sz : Int) + n.toInt)
  have le : x.sz ≤ ProcessMemory.grown x.sz n := by omega
  simp only [sys_sbrk, growproc, if_pos more]
  obtain ⟨⟨sz, t', r'⟩, done, stay, result⟩ :=
    uvmalloc_spec ⟨false, true, false, false⟩ shape owns small le
  simp only at stay result
  rw [done]
  simp only [Bind.bind, Except.bind]
  by_cases zero : sz = 0
  · obtain ⟨-, shape'⟩ := result.resolve_right fun h => by omega
    rw [if_pos zero]
    exact yields_ok (serves_failed shape owns shape' stay)
  · obtain ⟨rfl, small', shape', zeros⟩ := result.resolve_left fun h => zero h.1
    rw [if_neg zero]
    exact yields_ok (serves_grown owns small small' size shape' stay zeros)

theorem sbrk_shrinks {n : BitVec 32} (shape : Shape x.pagetable (pages x.sz))
    (owns : Owns x.pagetable r.memory) (small : x.sz ≤ USER * PGSIZE) (less : n.toInt < 0)
    (enough : 0 ≤ (x.sz : Int) + n.toInt) :
    Yields (sys_sbrk x n r) fun y => Serves x n r y.1 y.2.1 y.2.2 := by
  have size := grown_up small enough
  have le : ProcessMemory.grown x.sz n ≤ x.sz := by omega
  simp only [sys_sbrk, growproc, if_neg (Int.not_lt.mpr less.le), if_pos less]
  obtain ⟨⟨sz, t', r'⟩, done, same, shape', -, stay⟩ :=
    uvmdealloc_spec (ProcessMemory.grown x.sz n) shape owns small
  simp only [min_eq_right le] at same shape' stay
  obtain rfl := same
  rw [done]
  exact yields_ok (serves_shrunk shape owns small le size shape' stay)

/-- `uvmdealloc` is asked for a larger size and says nothing. -/
theorem sbrk_ignores {n : BitVec 32} (small : x.sz ≤ USER * PGSIZE)
    (negative : (x.sz : Int) + n.toInt < 0) : sys_sbrk x n r = .ok (x.sz, x, r) := by
  have less : n.toInt < 0 := by omega
  have le := grown_wraps small negative
  simp only [sys_sbrk, growproc, if_neg (Int.not_lt.mpr less.le), if_pos less, uvmdealloc,
    if_pos le]
  rfl

/-- It does so unless the sum is negative: then it returns the old size and nothing happens. -/
theorem sbrk_serves_iff (shape : Shape x.pagetable (pages x.sz))
    (owns : Owns x.pagetable r.memory) (small : x.sz ≤ USER * PGSIZE) (n : BitVec 32) :
    Yields (sys_sbrk x n r) (fun y => Serves x n r y.1 y.2.1 y.2.2) ↔
      0 ≤ (x.sz : Int) + n.toInt := by
  constructor
  · intro serves
    by_contra negative
    have below : (x.sz : Int) + n.toInt < 0 := Int.lt_of_not_ge negative
    rcases serves.of_ok (sbrk_ignores small below) with ⟨failed, -⟩ | ⟨-, size, -⟩
    · simp only at failed
      omega
    · simp only at size
      omega
  · intro enough
    rcases lt_trichotomy 0 n.toInt with more | none_ | less
    · exact sbrk_grows shape owns small more
    · have still : sys_sbrk x n r = .ok (x.sz, x, r) := by
        simp only [sys_sbrk, growproc, ← none_, Int.lt_irrefl, if_false]
        rfl
      rw [still]
      exact yields_ok (serves_shrunk shape owns small le_rfl (by omega) shape (.refl _ _ _))
    · exact sbrk_shrinks shape owns small less enough

/-- Nothing but `k` free pages. -/
def freePages (k : Nat) : Memory :=
  ⟨(List.range k).map fun i => 0x80010000 + i * PGSIZE, 0x80010000, fun _ => false, 0⟩

theorem freePages_valid {k i : Nat} (few : k ≤ 1024) (less : i < k) :
    Valid (freePages k) (0x80010000 + i * PGSIZE) := by
  have first : (0x80010000 + i * 4096) % 4096 = 0 := by omega
  have last : 0x80010000 + i * 4096 < 0x80000000 + 128 * 1024 * 1024 := by omega
  exact ⟨first, Nat.le_add_right _ _, last⟩

theorem freePages_once (k : Nat) : (freePages k).freelist.Nodup := by
  have apart (i j : Nat) (same : 0x80010000 + i * 4096 = 0x80010000 + j * 4096) : i = j := by
    omega
  exact List.nodup_range.map apart

theorem freePages_ram {k : Nat} (few : k ≤ 1024) (pg : Page) :
    free (freePages k) pg ≤ ram (freePages k) pg := by
  by_cases mem : pg ∈ (freePages k).freelist
  · have valid : Valid (freePages k) pg := by
      obtain ⟨i, less, rfl⟩ := List.mem_map.mp mem
      exact freePages_valid few (List.mem_range.mp less)
    rw [ram, if_pos valid]
    exact List.nodup_iff_count_le_one.mp (freePages_once k) pg
  · rw [not_free_iff.mp mem]
    exact Nat.zero_le _

/-- The first process has one page. -/
theorem first_process : ∃ t m, Shape t (pages PGSIZE) ∧ Owns t m := by
  have starts : Yields (ProcessMemory.userinit (n := 1) 0x80007000 (freePages 8)) fun up =>
      ∀ s, up = some s → MemoryAccounts.Inv (free (freePages 8)) s :=
    MemoryAccounts.userinit_spec (freePages_ram (by decide))
  obtain ⟨up, made, inv⟩ := starts
  have first : (ProcessMemory.userinit (n := 1) 0x80007000 (freePages 8)).toOption.join.map
      (fun s => ((s.proc 0).sz, (s.proc 0).state)) = some (PGSIZE, .runnable) := by
    decide +kernel
  rw [made] at first
  obtain ⟨s, rfl, same⟩ := Option.map_eq_some_iff.mp first
  obtain ⟨size, state⟩ := Prod.mk.inj same
  obtain ⟨trapframe, t, -, table, -, shape⟩ := ((inv s rfl).fits 0).used (by rw [state]; decide)
  rw [size] at shape
  exact ⟨t, s.memory, shape, ((inv s rfl).affords 0).owns table⟩

theorem page_small : PGSIZE ≤ USER * PGSIZE := by decide

theorem sbrk_serves_page : ∃ t m,
    Yields (sys_sbrk ⟨PGSIZE, t⟩ (-4096) ⟨m, fun _ _ => 0⟩)
      (fun y => Serves ⟨PGSIZE, t⟩ (-4096) ⟨m, fun _ _ => 0⟩ y.1 y.2.1 y.2.2) ↔
    0 ≤ ((PGSIZE : Nat) : Int) + (-4096 : BitVec 32).toInt := by
  obtain ⟨t, m, shape, owns⟩ := first_process
  exact ⟨t, m, sbrk_serves_iff (x := ⟨PGSIZE, t⟩) shape owns page_small (-4096)⟩

/-- The first process gives back a byte more than it has, and is told that it worked. -/
theorem sbrk_ignored : ∃ (t : Pagetable) (r : Ram), Shape t (pages PGSIZE) ∧ Owns t r.memory ∧
    ¬ Yields (sys_sbrk ⟨PGSIZE, t⟩ (-4097) r) fun y =>
      Serves ⟨PGSIZE, t⟩ (-4097) r y.1 y.2.1 y.2.2 := by
  obtain ⟨t, m, shape, owns⟩ := first_process
  refine ⟨t, ⟨m, fun _ _ => 0⟩, shape, owns, fun serves => ?_⟩
  have more : (-4097 : BitVec 32).toInt = -4097 := by decide
  have ignored : sys_sbrk ⟨PGSIZE, t⟩ (-4097) ⟨m, fun _ _ => 0⟩ =
      .ok (PGSIZE, ⟨PGSIZE, t⟩, ⟨m, fun _ _ => 0⟩) := by
    refine sbrk_ignores (x := ⟨PGSIZE, t⟩) page_small ?_
    rw [more]
    exact (by decide : (4096 : Int) + -4097 < 0)
  rcases serves.of_ok ignored with ⟨failed, -⟩ | ⟨-, size, -⟩
  · cases failed
  · rw [more] at size
    cases size

end SbrkCalls
