import Xv6.PagetableCalls
import Xv6.ProcessMemory

/-!
# Every page is in one place

A process owns its trapframe, the pages of its table and its user pages. Each
call, also one that fails halfway, leaves the free list and the processes with
every page of the machine once, and each process with exactly the pages up to
its size.
-/

namespace MemoryAccounts
open Pagetables PagetableViews PagetableCalls ProcessMemory EventRuns Outcomes Function

attribute [local irreducible] users nodes

variable {n : Nat} {s : State n} {x : Proc n} {m : Memory} {t : Pagetable} {p : Fin n}
  {trampoline : Page} {all : Page → Nat}

/-- How often a process has a page: as its trapframe, in its table, as a user page. -/
def owned (x : Proc n) (pg : Page) : Nat :=
  (if x.trapframe = some pg then 1 else 0) +
    x.pagetable.elim 0 fun t => nodes t pg + users t pg

/-- A slot in use has a trapframe and a table with the pages up to its size. -/
def Fits (x : Proc n) : Prop :=
  if x.state = .unused then x.trapframe = none ∧ x.pagetable = none ∧ x.sz = 0
  else ∃ trapframe t, x.trapframe = some trapframe ∧ x.pagetable = some t ∧
    x.sz ≤ USER * PGSIZE ∧ Shape t (pages x.sz)

/-- Nothing is held twice by a process and the free list. -/
def Affords (x : Proc n) (m : Memory) : Prop := ∀ pg, free m pg + owned x pg ≤ ram m pg

/-- The process and the free list hold what they held. -/
structure Moves (x : Proc n) (m : Memory) (x' : Proc n) (m' : Memory) : Prop where
  kernel : m'.kernelEnd = m.kernelEnd
  held : ∀ pg, free m' pg + owned x' pg = free m pg + owned x pg

/-- The free list and the processes have all pages there are. -/
structure Inv (all : Page → Nat) (s : State n) : Prop where
  inRam : ∀ pg, all pg ≤ ram s.memory pg
  fits : ∀ p, Fits (s.proc p)
  once : ∀ pg, free s.memory pg + ∑ p, owned (s.proc p) pg = all pg

theorem Moves.trans {x' x'' : Proc n} {m' m'' : Memory} (first : Moves x m x' m')
    (next : Moves x' m' x'' m'') : Moves x m x'' m'' :=
  ⟨next.kernel.trans first.kernel, fun pg => (next.held pg).trans (first.held pg)⟩

theorem Affords.moves {x' : Proc n} {m' : Memory} (afford : Affords x m)
    (moves : Moves x m x' m') : Affords x' m' := by
  intro pg
  rw [moves.held, ram_congr moves.kernel]
  exact afford pg

theorem owned_free (pg : Page) : owned (.free : Proc n) pg = 0 := rfl

theorem owned_used {trapframe : Page} (tf : x.trapframe = some trapframe)
    (table : x.pagetable = some t) (pg : Page) :
    owned x pg = (if trapframe = pg then 1 else 0) + (nodes t pg + users t pg) := by
  rw [owned, tf, table, Option.elim_some]
  simp only [Option.some.injEq]

theorem Affords.owns (afford : Affords x m) (table : x.pagetable = some t) : Owns t m := by
  intro pg
  have all := afford pg
  rw [owned, table, Option.elim_some] at all
  unfold held
  omega

/-- A change within the table of a process. -/
theorem Even.moves {t' : Pagetable} {m' : Memory} {x' : Proc n} (even : Even t m t' m')
    (table : x.pagetable = some t) (table' : x'.pagetable = some t')
    (trapframe : x'.trapframe = x.trapframe) : Moves x m x' m' := by
  refine ⟨even.kernel, fun pg => ?_⟩
  have same := even.held pg
  rw [owned, owned, table, table', trapframe, Option.elim_some, Option.elim_some]
  unfold held at same
  omega

theorem Fits.used (fits : Fits x) (live : x.state ≠ .unused) :
    ∃ trapframe t, x.trapframe = some trapframe ∧ x.pagetable = some t ∧
      x.sz ≤ USER * PGSIZE ∧ Shape t (pages x.sz) := by
  rwa [Fits, if_neg live] at fits

theorem Fits.unused (fits : Fits x) (free : x.state = .unused) :
    x.trapframe = none ∧ x.pagetable = none ∧ x.sz = 0 := by
  rwa [Fits, if_pos free] at fits

theorem fits_used {trapframe : Page} (live : x.state ≠ .unused)
    (tf : x.trapframe = some trapframe) (table : x.pagetable = some t)
    (small : x.sz ≤ USER * PGSIZE) (shape : Shape t (pages x.sz)) : Fits x := by
  rw [Fits, if_neg live]
  exact ⟨trapframe, t, tf, table, small, shape⟩

theorem fits_free : Fits (.free : Proc n) := ⟨rfl, rfl, rfl⟩

theorem uvmfree_empty (empty : ∀ v < 512 ^ 3, find t v = none) (owns : Owns t m) :
    Yields (uvmfree t 0 m) fun m' => m'.kernelEnd = m.kernelEnd ∧
      ∀ pg, free m' pg = held t m pg := by
  refine uvmfree_spec (Nat.zero_le _) owns (fun v hv => ?_) fun v hv pte found => ?_
  · exact iff_of_false (fun some_ => some_ (empty v hv)) (Nat.not_lt_zero v)
  · rw [empty v hv] at found
    cases found

theorem find_empty (page : Page) (v : Nat) : find (.empty page) v = none := rfl

theorem held_empty (page : Page) (m : Memory) (pg : Page) :
    held (.empty page) m pg = free m pg + if page = pg then 1 else 0 := by
  have none_ := users_none (t := .empty page) (fun v _ => find_empty page v) pg
  rw [held, none_, nodes, nodesOf_empty, Nat.add_zero]

/-- A new table maps the two pages at the top; if there is none, nothing is lost. -/
theorem proc_pagetable_spec {trapframe : Page} (fine : ∀ pg, free m pg ≤ ram m pg) :
    Yields (proc_pagetable trampoline trapframe m) fun r => r.2.kernelEnd = m.kernelEnd ∧
      (r.1 = none → ∀ pg, free r.2 pg = free m pg) ∧
      ∀ t, r.1 = some t → Shape t 0 ∧ ∀ pg, held t r.2 pg = free m pg := by
  have top : TRAMPOLINE = (USER + 1) * PGSIZE := rfl
  have frame : TRAPFRAME = USER * PGSIZE := rfl
  obtain ⟨kernel, count⟩ := kalloc_spec m
  unfold proc_pagetable uvmcreate
  cases taken : kalloc m with
  | mk r m₁ =>
    rw [taken] at kernel count
    cases r with
    | none =>
      refine yields_ok ⟨kernel, fun _ pg => ?_, nofun⟩
      simpa using (count pg).symm
    | some page =>
      have start (pg : Page) : held (.empty page) m₁ pg = free m pg := by
        rw [held_empty, count pg]
        simp only [Option.some.injEq]
      have owns : Owns (.empty page) m₁ := by
        intro pg
        rw [start, ram_congr kernel]
        exact fine pg
      simp only [top, frame]
      refine (map_top (find_empty page _) (Nat.le_succ USER) (by decide)).bind ?_
      rintro ⟨ok, t₁, m₂⟩ ⟨even₁, same₁⟩
      have owns₁ := even₁.owns owns
      have kernel₁ := even₁.kernel.trans kernel
      cases ok with
      | false =>
        have empty (v : Nat) (hv : v < 512 ^ 3) : find t₁ v = none := by
          rw [same₁ v hv, if_neg (by simp)]
          exact find_empty page v
        refine (uvmfree_empty empty owns₁).bind ?_
        rintro m₃ ⟨kernel₂, count₂⟩
        exact yields_ok ⟨kernel₂.trans kernel₁,
          fun _ pg => (count₂ pg).trans ((even₁.held pg).trans (start pg)), nofun⟩
      | true =>
        simp only [true_and] at same₁
        have mapped (v : Nat) (hv : v < 512 ^ 3) (away : v ≠ USER + 1) : find t₁ v = none := by
          rw [same₁ v hv, if_neg away]
          exact find_empty page v
        have there : find t₁ (USER + 1) = some ⟨trampoline, ⟨true, false, true, false⟩⟩ := by
          rw [same₁ _ (by decide), if_pos rfl]
        refine (map_top (mapped USER (by decide) (by decide)) le_rfl (by decide)).bind ?_
        rintro ⟨ok, t₂, m₃⟩ ⟨even₂, same₂⟩
        have owns₂ := even₂.owns owns₁
        have kernel₂ := even₂.kernel.trans kernel₁
        cases ok with
        | false =>
          simp only [Bool.false_eq_true, false_and, if_false] at same₂
          have there₂ := (same₂ (USER + 1) (by decide)).trans there
          refine (unmap_top there₂ rfl (Nat.le_succ USER) (by decide)).bind ?_
          rintro ⟨t₃, m₄⟩ ⟨even₃, same₃⟩
          have empty (v : Nat) (hv : v < 512 ^ 3) : find t₃ v = none := by
            rw [same₃ v hv]
            split
            next => rfl
            next away => rw [same₂ v hv, mapped v hv away]
          refine (uvmfree_empty empty (even₃.owns owns₂)).bind ?_
          rintro m₅ ⟨kernel₃, count₃⟩
          exact yields_ok ⟨kernel₃.trans (even₃.kernel.trans kernel₂), fun _ pg =>
            (count₃ pg).trans ((even₃.held pg).trans ((even₂.held pg).trans
              ((even₁.held pg).trans (start pg)))), nofun⟩
        | true =>
          simp only [true_and] at same₂
          refine yields_ok ⟨kernel₂, nofun, ?_⟩
          rintro t same
          cases same
          refine ⟨⟨Nat.zero_le _, fun v hv => ?_, fun v hv pte found => ?_⟩, fun pg =>
            (even₂.held pg).trans ((even₁.held pg).trans (start pg))⟩
          · rw [same₂ v hv, same₁ v hv]
            split_ifs with here here'
            · exact iff_of_true nofun (.inr (.inl here))
            · exact iff_of_true nofun (.inr (.inr here'))
            · refine iff_of_false (fun some_ => some_ (find_empty page v)) ?_
              omega
          · rw [same₂ v hv, same₁ v hv] at found
            split_ifs at found
            · cases found
              rfl
            · cases found
              rfl
            · cases found

/-- The table of a process gives back all that it holds. -/
theorem proc_freepagetable_spec {sz : Nat} (shape : Shape t (pages sz)) (owns : Owns t m)
    (small : sz ≤ USER * PGSIZE) :
    Yields (proc_freepagetable t sz m) fun m' => m'.kernelEnd = m.kernelEnd ∧
      ∀ pg, free m' pg = held t m pg := by
  have within := shape.within
  have top : TRAMPOLINE = (USER + 1) * PGSIZE := rfl
  have frame : TRAPFRAME = USER * PGSIZE := rfl
  obtain ⟨pte, found⟩ := Option.ne_none_iff_exists'.mp
    ((shape.mapped (USER + 1) (by decide)).mpr (.inr (.inr rfl)))
  obtain ⟨pte', found'⟩ := Option.ne_none_iff_exists'.mp
    ((shape.mapped USER (by decide)).mpr (.inr (.inl rfl)))
  unfold proc_freepagetable
  rw [top, frame]
  refine (unmap_top found (shape.readable _ (by decide) _ found) (Nat.le_succ USER)
    (by decide)).bind ?_
  rintro ⟨t₁, m₁⟩ ⟨even₁, same₁⟩
  have found₁ : find t₁ USER = some pte' := by
    rw [same₁ USER (by decide), if_neg (by decide)]
    exact found'
  refine (unmap_top found₁ (shape.readable _ (by decide) _ found') le_rfl (by decide)).bind ?_
  rintro ⟨t₂, m₂⟩ ⟨even₂, same₂⟩
  have even := even₁.trans even₂
  refine (uvmfree_spec small (even.owns owns) (fun v hv => ?_) fun v hv pte found => ?_).mono ?_
  · have old := shape.mapped v hv
    rw [same₂ v hv, same₁ v hv]
    split_ifs with here here'
    · exact iff_of_false (fun some_ => some_ rfl) (by omega)
    · exact iff_of_false (fun some_ => some_ rfl) (by omega)
    · rw [old]
      omega
  · rw [same₂ v hv, same₁ v hv] at found
    split_ifs at found
    exact shape.readable v hv pte found
  · rintro m₃ ⟨kernel, count⟩
    exact ⟨kernel.trans even.kernel, fun pg => (count pg).trans (even.held pg)⟩

/-- `freeproc` gives back all that a process has. -/
theorem freeproc_spec (afford : Affords x m)
    (table : ∀ t, x.pagetable = some t → x.sz ≤ USER * PGSIZE ∧ Shape t (pages x.sz)) :
    Yields (freeproc x m) fun r => r.1 = .free ∧ Moves x m r.1 r.2 := by
  have first : Yields (freeTrapframe x m) fun m' => m'.kernelEnd = m.kernelEnd ∧
      ∀ pg, free m' pg = free m pg + if x.trapframe = some pg then 1 else 0 := by
    unfold freeTrapframe
    cases tf : x.trapframe with
    | none => exact yields_ok ⟨rfl, fun pg => rfl⟩
    | some trapframe =>
      have valid : Valid m trapframe := by
        refine valid_of_ram fun none_ => ?_
        have all := afford trapframe
        rw [owned, if_pos tf] at all
        omega
      refine (kfree_spec valid).mono ?_
      rintro m' ⟨kernel, count⟩
      refine ⟨kernel, fun pg => ?_⟩
      rw [count]
      simp only [Option.some.injEq]
  unfold freeproc
  refine first.bind ?_
  rintro m₁ ⟨kernel₁, count₁⟩
  have second : Yields (freeTable x m₁) fun m' => m'.kernelEnd = m₁.kernelEnd ∧
      ∀ pg, free m' pg = free m₁ pg + x.pagetable.elim 0 fun t => nodes t pg + users t pg := by
    unfold freeTable
    cases here : x.pagetable with
    | none => exact yields_ok ⟨rfl, fun pg => rfl⟩
    | some t =>
      obtain ⟨small, shape⟩ := table t here
      have owns : Owns t m₁ := by
        intro pg
        have all := afford pg
        have one := count₁ pg
        rw [owned, here, Option.elim_some] at all
        rw [ram_congr kernel₁, held]
        omega
      refine (proc_freepagetable_spec shape owns small).mono ?_
      rintro m' ⟨kernel, count⟩
      refine ⟨kernel, fun pg => ?_⟩
      rw [count, held, Option.elim_some, Nat.add_assoc]
  refine second.bind ?_
  rintro m₂ ⟨kernel₂, count₂⟩
  refine yields_ok ⟨rfl, kernel₂.trans kernel₁, fun pg => ?_⟩
  have one := count₁ pg
  have two := count₂ pg
  change free m₂ pg + 0 = free m pg + owned x pg
  rw [owned]
  omega

/-- A slot gets a trapframe and a table without user pages, or stays as it is. -/
theorem found_spec (fits : Fits x) (free_ : x.state = .unused) (afford : Affords x m) :
    Yields (found trampoline x m) fun r => Moves x m r.2.1 r.2.2 ∧ Fits r.2.1 ∧
      (r.1 = true → r.2.1.state = .used ∧ r.2.1.sz = 0) := by
  obtain ⟨noFrame, noTable, noSize⟩ := fits.unused free_
  have nothing (pg : Page) : owned x pg = 0 := by
    rw [owned, noFrame, noTable]
    rfl
  obtain ⟨kernel, count⟩ := kalloc_spec m
  unfold found
  cases taken : kalloc m with
  | mk r m₁ =>
    rw [taken] at kernel count
    cases r with
    | none =>
      have moves : Moves x m { x with state := .used, trapframe := none } m₁ := by
        refine ⟨kernel, fun pg => ?_⟩
        have same := count pg
        simp only [reduceCtorEq, if_false] at same
        rw [nothing, owned, noTable]
        simp only [reduceCtorEq, if_false, Option.elim_none]
        omega
      refine (freeproc_spec (afford.moves moves) fun t same => ?_).bind ?_
      · rw [noTable] at same
        cases same
      · rintro ⟨x', m'⟩ ⟨rfl, more⟩
        exact yields_ok ⟨moves.trans more, fits_free, nofun⟩
    | some trapframe =>
      simp only [Option.some.injEq] at kernel count
      have fine (pg : Page) : free m₁ pg ≤ ram m₁ pg := by
        have all := afford pg
        have one := count pg
        rw [ram_congr kernel]
        omega
      refine (proc_pagetable_spec fine).bind ?_
      rintro ⟨r, m₂⟩ ⟨kernel₂, failed, made⟩
      cases r with
      | none =>
        have moves : Moves x m
            { x with state := .used, trapframe := some trapframe, pagetable := none } m₂ := by
          refine ⟨kernel₂.trans kernel, fun pg => ?_⟩
          have same := failed rfl pg
          have one := count pg
          rw [nothing, owned]
          simp only [Option.some.injEq, Option.elim_none] at same ⊢
          omega
        refine (freeproc_spec (afford.moves moves) nofun).bind ?_
        rintro ⟨x', m'⟩ ⟨rfl, more⟩
        exact yields_ok ⟨moves.trans more, fits_free, nofun⟩
      | some t =>
        obtain ⟨shape, all⟩ := made t rfl
        have moves : Moves x m { x with
            state := .used, trapframe := some trapframe, pagetable := some t } m₂ := by
          refine ⟨kernel₂.trans kernel, fun pg => ?_⟩
          have same : held t m₂ pg = free m₁ pg := all pg
          have one := count pg
          rw [nothing, owned_used rfl rfl]
          unfold held at same
          omega
        have small : x.sz ≤ USER * PGSIZE := noSize ▸ Nat.zero_le _
        rw [← pages_zero, ← noSize] at shape
        exact yields_ok ⟨moves, fits_used nofun rfl rfl small shape, fun _ => ⟨rfl, noSize⟩⟩

theorem Inv.affords (inv : Inv all s) (p : Fin n) : Affords (s.proc p) s.memory := by
  intro pg
  have total := inv.once pg
  have most := inv.inRam pg
  have one := Finset.single_le_sum (f := fun p => owned (s.proc p) pg)
    (fun _ _ => Nat.zero_le _) (Finset.mem_univ p)
  omega

/-- A call that changes one process and the free list. -/
theorem Inv.put (inv : Inv all s) {x' : Proc n} {m' : Memory} (fits : Fits x')
    (moves : Moves (s.proc p) s.memory x' m') : Inv all (s.put p x' m') := by
  refine ⟨fun pg => ?_, fun q => ?_, fun pg => ?_⟩
  · exact (inv.inRam pg).trans_eq (ram_congr moves.kernel pg).symm
  · simp only [State.put, update_apply]
    split
    · exact fits
    · exact inv.fits q
  · have change := Tallies.sum_update (fun x => owned x pg) s.proc p x'
    have total := inv.once pg
    have one := moves.held pg
    change free m' pg + ∑ q, owned (update s.proc p x' q) pg = all pg
    omega

theorem allocproc_spec (inv : Inv all s) :
    Yields (allocproc trampoline s) fun r => Inv all r.2 ∧
      (∀ q, (s.proc q).state ≠ .unused → r.2.proc q = s.proc q) ∧
      ∀ np, r.1 = some np → (s.proc np).state = .unused ∧ (r.2.proc np).state = .used ∧
        (r.2.proc np).sz = 0 := by
  unfold allocproc
  split
  next => exact yields_ok ⟨inv, fun _ _ => rfl, nofun⟩
  next np here =>
    have free_ : (s.proc np).state = .unused := by
      have holds := List.find?_some here
      simpa using holds
    refine (found_spec (inv.fits np) free_ (inv.affords np)).bind ?_
    rintro ⟨ok, x, m⟩ ⟨moves, fits, fine⟩
    refine yields_ok ⟨inv.put fits moves, fun q live => ?_, fun k same => ?_⟩
    · refine update_of_ne ?_ _ _
      rintro rfl
      exact live free_
    · cases ok with
      | false => cases same
      | true =>
        cases same
        refine ⟨free_, ?_⟩
        simpa [State.put] using fine rfl

theorem fork_spec (inv : Inv all s) (live : (s.proc p).state = .runnable) :
    Yields (fork trampoline s p) fun r => Inv all r.2 := by
  unfold fork
  refine (allocproc_spec inv).bind ?_
  rintro ⟨r, s'⟩ ⟨inv', others, made⟩
  simp only at inv' others made
  cases r with
  | none => exact yields_ok inv'
  | some np =>
    obtain ⟨free_, used, empty⟩ := made np rfl
    have parent : s'.proc p = s.proc p := others p (by rw [live]; exact nofun)
    have fitsP := (inv'.fits p).used (by rw [parent, live]; exact nofun)
    obtain ⟨_, old, -, table, small, whole⟩ := fitsP
    have fitsNp := (inv'.fits np).used (by rw [used]; exact nofun)
    obtain ⟨trapframe, new, tf, table', -, shape⟩ := fitsNp
    rw [empty, pages_zero] at shape
    have owns := (inv'.affords np).owns table'
    simp only [table, table']
    refine (uvmcopy_spec whole small shape owns).bind ?_
    rintro ⟨ok, t', m'⟩ ⟨even, result⟩
    cases ok with
    | false =>
      obtain ⟨-, shape'⟩ := result.resolve_right fun h => nomatch h.1
      have moves : Moves (s'.proc np) s'.memory { s'.proc np with pagetable := some t' } m' :=
        Even.moves even table' rfl rfl
      refine (freeproc_spec ((inv'.affords np).moves moves) fun t same => ?_).bind ?_
      · cases same
        rw [empty, pages_zero]
        exact ⟨Nat.zero_le _, shape'⟩
      · rintro ⟨x', m''⟩ ⟨rfl, more⟩
        exact yields_ok (inv'.put fits_free (moves.trans more))
    | true =>
      obtain ⟨-, shape'⟩ := result.resolve_left fun h => nomatch h.1
      refine yields_ok (inv'.put ?_ (Even.moves even table' rfl rfl))
      exact fits_used nofun tf rfl small shape'

theorem growproc_spec (fits : Fits x) (live : x.state ≠ .unused) (afford : Affords x m)
    (k : BitVec 32) :
    Yields (growproc x k m) fun r => Fits r.2.1 ∧ Moves x m r.2.1 r.2.2 := by
  obtain ⟨trapframe, t, tf, table, small, shape⟩ := fits.used live
  have owns := afford.owns table
  unfold growproc
  simp only [table]
  split
  next =>
    refine (uvmalloc_spec shape owns small).bind ?_
    rintro ⟨sz, t', m'⟩ ⟨even, result⟩
    simp only at result even ⊢
    have failed (zero : sz = 0) : Shape t' (pages x.sz) := by
      rcases result with ⟨-, shape'⟩ | ⟨max_, -, shape'⟩
      · exact shape'
      · have none_ : x.sz = 0 := by omega
        rwa [none_, ← zero]
    split
    next zero =>
      exact yields_ok ⟨fits_used live tf rfl small (failed zero),
        Even.moves even table rfl rfl⟩
    next more =>
      obtain ⟨-, within, shape'⟩ := result.resolve_left fun h => more h.1
      exact yields_ok ⟨fits_used live tf rfl within shape', Even.moves even table rfl rfl⟩
  next =>
    split
    next =>
      refine (uvmdealloc_spec shape owns small).bind ?_
      rintro ⟨sz, t', m'⟩ ⟨size, shape', even⟩
      simp only at size shape' even
      subst size
      exact yields_ok ⟨fits_used live tf rfl ((min_le_left _ _).trans small) shape',
        Even.moves even table rfl rfl⟩
    next => exact yields_ok ⟨fits, rfl, fun pg => rfl⟩

theorem loadLoop_spec (segments : List Segment) {sz : Nat} {t : Pagetable} {m : Memory}
    (shape : Shape t (pages sz)) (small : sz ≤ USER * PGSIZE) (owns : Owns t m) :
    Yields (loadLoop segments sz t m) fun r => Shape r.2.2.1 (pages r.2.1) ∧
      r.2.1 ≤ USER * PGSIZE ∧ Even t m r.2.2.1 r.2.2.2 := by
  induction segments generalizing sz t m with
  | nil => exact yields_ok ⟨shape, small, .refl t m⟩
  | cons ph rest ih =>
    have stop (ok : Bool) : Yields (.ok (ok, sz, t, m) : Except Panic _)
        fun r => Shape r.2.2.1 (pages r.2.1) ∧ r.2.1 ≤ USER * PGSIZE ∧
          Even t m r.2.2.1 r.2.2.2 := yields_ok ⟨shape, small, .refl t m⟩
    unfold loadLoop
    split
    next => exact stop false
    next =>
      split
      next => exact ih shape small owns
      next =>
        split
        next => exact stop false
        next =>
          refine (uvmalloc_spec shape owns small).bind ?_
          rintro ⟨sz1, t', m'⟩ ⟨even, result⟩
          simp only at result even ⊢
          split
          next zero =>
            refine yields_ok ⟨?_, small, even⟩
            rcases result with ⟨-, shape'⟩ | ⟨max_, -, shape'⟩
            · exact shape'
            · have none_ : sz = 0 := by omega
              simpa only [none_, zero] using shape'
          next more =>
            obtain ⟨-, within, shape'⟩ := result.resolve_left fun h => more h.1
            split
            next => exact yields_ok ⟨shape', within, even⟩
            next =>
              refine (ih shape' within (even.owns owns)).mono ?_
              rintro r ⟨shape₂, within₂, even₂⟩
              exact ⟨shape₂, within₂, even.trans even₂⟩

/-- The pages of a table that `exec` builds were free in `m`. -/
structure Building (m : Memory) (t : Pagetable) (sz : Nat) (m' : Memory) : Prop where
  shape : Shape t (pages sz)
  small : sz ≤ USER * PGSIZE
  kernel : m'.kernelEnd = m.kernelEnd
  held : ∀ pg, held t m' pg = free m pg

namespace Building

variable {t t' : Pagetable} {sz sz' : Nat} {m₁ m₂ : Memory} {xperm : Perm}

theorem owns (building : Building m t sz m₁) (afford : Affords x m) : Owns t m₁ := by
  intro pg
  rw [building.held, ram_congr building.kernel]
  exact (Nat.le_add_right _ _).trans (afford pg)

theorem even (building : Building m t sz m₁) (even : Even t m₁ t' m₂) (shape : Shape t' (pages sz'))
    (small : sz' ≤ USER * PGSIZE) : Building m t' sz' m₂ :=
  ⟨shape, small, even.kernel.trans building.kernel,
    fun pg => (even.held pg).trans (building.held pg)⟩

/-- The new table of an `exec` that fails gives back its pages. -/
theorem bad (building : Building m t sz m₁) (fits : Fits x) (afford : Affords x m) :
    Yields (execBad x t sz m₁) fun r => Fits r.2.1 ∧ Moves x m r.2.1 r.2.2 := by
  refine (proc_freepagetable_spec building.shape (building.owns afford) building.small).bind ?_
  rintro m₂ ⟨kernel, count⟩
  refine yields_ok ⟨fits, kernel.trans building.kernel, fun pg => ?_⟩
  rw [count, building.held]

/-- The image ends with a page. -/
theorem round (building : Building m t sz m₁) : PGROUNDUP sz = pages sz * PGSIZE ∧
    (PGROUNDUP sz + 2 * PGSIZE) % 2 ^ 64 = (pages sz + 2) * PGSIZE ∧
    Building m t (PGROUNDUP sz) m₁ := by
  have within := building.shape.within
  have round : PGROUNDUP sz = pages sz * PGSIZE := by
    rw [pages_eq building.small, PGROUNDUP_eq building.small]
  refine ⟨round, ?_, ?_, ?_, building.kernel, building.held⟩
  · rw [round]
    rw [USER_eq] at within
    simp only [PGSIZE]
    omega
  · rw [round, pages_mul within]
    exact building.shape
  · rw [round]
    exact Nat.mul_le_mul_right _ within

/-- The two pages for the stack. -/
theorem stack (building : Building m t sz m₁) (afford : Affords x m) :
    Yields (uvmalloc t (PGROUNDUP sz) ((PGROUNDUP sz + 2 * PGSIZE) % 2 ^ 64) xperm m₁) fun r =>
      (r.1 = 0 ∧ Building m r.2.1 (PGROUNDUP sz) r.2.2) ∨
        (r.1 = (pages sz + 2) * PGSIZE ∧ Building m r.2.1 r.1 r.2.2) := by
  obtain ⟨round, grow, rounded⟩ := building.round
  have larger : max (PGROUNDUP sz) ((pages sz + 2) * PGSIZE) = (pages sz + 2) * PGSIZE := by
    rw [round]
    exact max_eq_right (Nat.mul_le_mul_right _ (by omega))
  rw [grow]
  refine (uvmalloc_spec rounded.shape (building.owns afford) rounded.small).mono ?_
  rintro ⟨sz1, t', m'⟩ ⟨even, ⟨zero, shape⟩ | ⟨size, small, shape⟩⟩
  · exact .inl ⟨zero, building.even even shape rounded.small⟩
  · exact .inr ⟨size.trans larger, building.even even shape small⟩

/-- The lower page of the stack becomes its guard. -/
theorem guard {k : Nat} (building : Building m t ((k + 2) * PGSIZE) m₁) :
    Yields (uvmclear t ((k + 2) * PGSIZE - 2 * PGSIZE) m₁) fun r =>
      Building m r.1 ((k + 2) * PGSIZE) r.2 := by
  have below : (k + 2) * PGSIZE - 2 * PGSIZE = k * PGSIZE := by
    rw [Nat.add_mul, Nat.add_sub_cancel]
  have inside : k < pages ((k + 2) * PGSIZE) := by
    rw [pages_eq building.small]
    simp only [PGSIZE]
    omega
  rw [below]
  refine (uvmclear_spec building.shape inside).mono ?_
  rintro ⟨t', m'⟩ ⟨shape, even⟩
  exact building.even even shape building.small

/-- The old image gives back its pages, and the new one takes its place. -/
theorem commit {old : Pagetable} {trapframe : Page} (building : Building m t sz m₁)
    (fits : Fits x) (afford : Affords x m) (tf : x.trapframe = some trapframe)
    (table : x.pagetable = some old) :
    Yields (proc_freepagetable old x.sz m₁) fun m₂ =>
      Fits { x with pagetable := some t, sz } ∧
        Moves x m { x with pagetable := some t, sz } m₂ := by
  have live : x.state ≠ .unused := by
    intro unused
    rw [(fits.unused unused).1] at tf
    cases tf
  have fitsOld := fits.used live
  rw [tf, table] at fitsOld
  obtain ⟨_, _, _, same, smallOld, shapeOld⟩ := fitsOld
  cases same
  have ownsOld : Owns old m₁ := by
    intro pg
    have one := building.held pg
    have two := afford pg
    rw [owned, table, Option.elim_some] at two
    rw [ram_congr building.kernel]
    unfold PagetableCalls.held at one ⊢
    omega
  refine (proc_freepagetable_spec shapeOld ownsOld smallOld).mono ?_
  rintro m₂ ⟨kernel, count⟩
  refine ⟨fits_used live tf rfl building.small building.shape, kernel.trans building.kernel,
    fun pg => ?_⟩
  have one := building.held pg
  have two := count pg
  have new := owned_used (x := { x with pagetable := some t, sz }) tf rfl pg
  rw [new, owned_used tf table]
  unfold PagetableCalls.held at one two
  omega

end Building

theorem exec_spec (fits : Fits x) (afford : Affords x m) (image : Image) :
    Yields (exec trampoline x image m) fun r => Fits r.2.1 ∧ Moves x m r.2.1 r.2.2 := by
  have fine (pg : Page) : free m pg ≤ ram m pg := (Nat.le_add_right _ _).trans (afford pg)
  have stop : Yields (.ok (false, x, m) : Except Panic _)
      fun r => Fits r.2.1 ∧ Moves x m r.2.1 r.2.2 := yields_ok ⟨fits, rfl, fun _ => rfl⟩
  unfold exec
  split
  next trapframe old tf table =>
    split
    next => exact stop
    next =>
      refine (proc_pagetable_spec fine).bind ?_
      rintro ⟨r, m₁⟩ ⟨kernel₁, failed, made⟩
      cases r with
      | none => exact yields_ok ⟨fits, kernel₁, fun pg => by rw [failed rfl pg]⟩
      | some t =>
        obtain ⟨shape, all⟩ := made t rfl
        rw [← pages_zero] at shape
        have empty : Building m t 0 m₁ := ⟨shape, Nat.zero_le _, kernel₁, all⟩
        refine (loadLoop_spec image.segments shape (Nat.zero_le _) (empty.owns afford)).bind ?_
        rintro ⟨ok, sz, t₂, m₂⟩ ⟨shape₂, small₂, even₂⟩
        have loaded : Building m t₂ sz m₂ := empty.even even₂ shape₂ small₂
        cases ok with
        | false => exact loaded.bad fits afford
        | true =>
          refine (loaded.stack afford).bind ?_
          rintro ⟨sz1, t₃, m₃⟩ result
          simp only at result ⊢
          split
          next zero =>
            rcases result with ⟨-, stacked⟩ | ⟨size, -⟩
            · exact stacked.bad fits afford
            · rw [zero] at size
              simp only [PGSIZE] at size
              omega
          next more =>
            obtain ⟨rfl, stacked⟩ := result.resolve_left fun h => more h.1
            refine stacked.guard.bind ?_
            rintro ⟨t₄, m₄⟩ guarded
            split
            next => exact guarded.bad fits afford
            next =>
              exact (guarded.commit fits afford tf table).bind fun m₅ done => yields_ok done
  next => exact stop

theorem reparent_proc (s : State n) (p j : Fin n) :
    ∃ parent, (reparent s p).proc j = { s.proc j with parent := parent } := by
  simp only [reparent]
  split
  · exact ⟨s.initproc, rfl⟩
  · exact ⟨(s.proc j).parent, rfl⟩

theorem Inv.reparented (inv : Inv all s) (p : Fin n) :
    Inv all (reparent s p) := by
  refine ⟨inv.inRam, fun j => ?_, fun pg => ?_⟩
  · obtain ⟨parent, same⟩ := reparent_proc s p j
    rw [same]
    exact inv.fits j
  · have same : ∑ j, owned ((reparent s p).proc j) pg = ∑ j, owned (s.proc j) pg := by
      refine Finset.sum_congr rfl fun j _ => ?_
      obtain ⟨parent, same⟩ := reparent_proc s p j
      rw [same]
      rfl
    rw [same]
    exact inv.once pg

theorem exit_spec (inv : Inv all s) (live : (s.proc p).state = .runnable) :
    exit s p = .error .initExiting ∨ Yields (exit s p) (Inv all) := by
  unfold exit
  split
  next => exact .inl rfl
  next =>
    right
    have inv' := inv.reparented p
    obtain ⟨parent, same⟩ := reparent_proc s p p
    have there : ((reparent s p).proc p).state ≠ .unused := by
      rw [same]
      simp only [live]
      exact nofun
    obtain ⟨trapframe, t, tf, table, small, shape⟩ := (inv'.fits p).used there
    exact yields_ok (inv'.put (fits_used nofun tf table small shape) ⟨rfl, fun pg => rfl⟩)

/-- The pages of the child are on the free list once. -/
theorem wait_spec (inv : Inv all s) (copied : Bool) :
    Yields (wait s p copied) fun r => Inv all r.2 ∧ ∀ pp, r.1 = some pp →
      r.2.proc pp = .free ∧ ∀ pg, owned (s.proc pp) pg ≠ 0 → free r.2.memory pg = 1 := by
  unfold wait
  split
  next => exact yields_ok ⟨inv, nofun⟩
  next pp here =>
    split
    next =>
      have holds := List.find?_some here
      have dead : (s.proc pp).state = .zombie := by
        simp only [decide_eq_true_eq] at holds
        exact holds.2
      have afford := inv.affords pp
      obtain ⟨trapframe, t, -, table, small, shape⟩ :=
        (inv.fits pp).used (by rw [dead]; exact nofun)
      refine (freeproc_spec afford fun t' same => ?_).bind ?_
      · rw [table] at same
        cases same
        exact ⟨small, shape⟩
      · rintro ⟨x, m⟩ ⟨rfl, moves⟩
        refine yields_ok ⟨inv.put fits_free moves, ?_⟩
        rintro _ ⟨⟩
        refine ⟨update_self .., fun pg some_ => ?_⟩
        have back : free m pg + 0 = free s.memory pg + owned (s.proc pp) pg := moves.held pg
        have all := afford pg
        have one := ram_le_one s.memory pg
        change free m pg = 1
        omega
    next => exact yields_ok ⟨inv, nofun⟩

theorem Inv.failing (inv : Inv all s) (fails : Nat → Bool) :
    Inv all (s.failing fails) := ⟨inv.inRam, inv.fits, inv.once⟩

theorem perform_spec (inv : Inv all s) (call : Call n)
    (live : (s.proc call.caller).state = .runnable) :
    perform trampoline s call = .error .initExiting ∨
      Yields (perform trampoline s call) (Inv all) := by
  cases call with
  | fork p =>
    refine .inr ((fork_spec inv live).bind ?_)
    rintro ⟨r, s'⟩ inv'
    exact yields_ok inv'
  | exec p image =>
    refine .inr ((exec_spec (inv.fits p) (inv.affords p) image).bind ?_)
    rintro ⟨ok, x, m⟩ ⟨fits, moves⟩
    exact yields_ok (inv.put fits moves)
  | growproc p k =>
    have used : (s.proc p).state ≠ .unused := by
      rw [show (s.proc p).state = .runnable from live]
      exact nofun
    refine .inr ((growproc_spec (inv.fits p) used (inv.affords p) k).bind ?_)
    rintro ⟨r, x, m⟩ ⟨fits, moves⟩
    exact yields_ok (inv.put fits moves)
  | exit p => exact exit_spec inv live
  | wait p copied =>
    refine .inr ((wait_spec inv copied).bind ?_)
    rintro ⟨r, s'⟩ ⟨inv', -⟩
    exact yields_ok inv'

theorem step_spec (inv : Inv all s) (e : Event n) :
    step trampoline s e = .error .initExiting ∨
      Yields (step trampoline s e) (Inv all) := by
  unfold step
  split
  next live => exact perform_spec (inv.failing e.fails) e.call live
  next => exact .inr (yields_ok inv)

theorem inv_step {s' : State n} {e : Event n} (inv : Inv all s)
    (h : step trampoline s e = .ok s') : Inv all s' := by
  rcases step_spec inv e with failed | fine
  · rw [failed] at h
    cases h
  · exact fine.of_ok h

theorem step_panic {e : Event n} {panic : Panic} (inv : Inv all s)
    (other : panic ≠ .initExiting) : step trampoline s e ≠ .error panic := by
  rcases step_spec inv e with failed | ⟨s', fine, -⟩
  · rw [failed]
    rintro ⟨⟩
    exact other rfl
  · rw [fine]
    exact nofun

theorem from_page {pa pg : Nat} (aligned : pa % PGSIZE = 0) (below : pa < PHYSTOP) :
    (if pa = pg then 1 else 0) +
      (if pg % PGSIZE = 0 ∧ pa + PGSIZE ≤ pg ∧ pg < PHYSTOP then 1 else 0) =
      if pg % PGSIZE = 0 ∧ pa ≤ pg ∧ pg < PHYSTOP then 1 else 0 := by
  by_cases here : pa = pg
  · subst here
    have behind : ¬ (pa % PGSIZE = 0 ∧ pa + PGSIZE ≤ pa ∧ pa < PHYSTOP) := by
      simp only [PGSIZE]
      omega
    rw [if_pos rfl, if_neg behind, if_pos ⟨aligned, le_rfl, below⟩]
  · rw [if_neg here, Nat.zero_add]
    refine if_congr ?_ rfl rfl
    simp only [PGSIZE] at aligned ⊢
    omega

theorem freeLoop_spec (rounds : Nat) {pa : Nat} {m : Memory} (aligned : pa % PGSIZE = 0)
    (low : m.kernelEnd ≤ pa) (enough : PHYSTOP < pa + rounds * PGSIZE) :
    Yields (freeLoop PHYSTOP rounds pa m) fun m' => m'.kernelEnd = m.kernelEnd ∧
      ∀ pg : Nat, free m' pg = free m pg +
        if pg % PGSIZE = 0 ∧ pa ≤ pg ∧ pg < PHYSTOP then 1 else 0 := by
  induction rounds generalizing pa m with
  | zero =>
    refine yields_ok ⟨rfl, fun pg => ?_⟩
    rw [if_neg (by omega)]
    rfl
  | succ rounds ih =>
    unfold freeLoop
    split
    next more =>
      have inside : pa < PHYSTOP := (Nat.lt_add_of_pos_right (by decide)).trans_le more
      have valid : Valid m pa := ⟨aligned, low, inside⟩
      refine (kfree_spec valid).bind ?_
      rintro m₁ ⟨kernel₁, count₁⟩
      refine (ih ?_ ?_ ?_).mono ?_
      · rw [Nat.add_mod_right]
        exact aligned
      · rw [kernel₁]
        exact low.trans (Nat.le_add_right _ _)
      · rw [Nat.succ_mul] at enough
        omega
      · rintro m₂ ⟨kernel₂, count₂⟩
        refine ⟨kernel₂.trans kernel₁, fun pg => ?_⟩
        rw [count₂, count₁, Nat.add_assoc]
        exact congrArg (free m pg + ·) (from_page aligned inside)
    next stop =>
      simp only [PGSIZE] at stop
      refine yields_ok ⟨rfl, fun pg => ?_⟩
      have none_ : ¬ (pg % PGSIZE = 0 ∧ pa ≤ pg ∧ pg < PHYSTOP) := by
        simp only [PGSIZE, PHYSTOP] at aligned stop ⊢
        omega
      rw [if_neg none_]
      rfl

/-- All pages from the end of the kernel on are free. -/
theorem kinit_spec {kernelEnd : Nat} (below : kernelEnd ≤ PHYSTOP) :
    Yields (kinit kernelEnd) fun m => m.kernelEnd = kernelEnd ∧ ∀ pg, free m pg = ram m pg := by
  have round : PGROUNDUP kernelEnd = (kernelEnd + 4095) / 4096 * 4096 := by
    simp only [PGROUNDUP, PGSIZE, PHYSTOP] at below ⊢
    omega
  have aligned_above (pg : Nat) :
      (pg % PGSIZE = 0 ∧ (kernelEnd + 4095) / 4096 * 4096 ≤ pg ∧ pg < PHYSTOP) ↔
        pg % PGSIZE = 0 ∧ kernelEnd ≤ pg ∧ pg < PHYSTOP := by
    simp only [PGSIZE]
    omega
  refine (freeLoop_spec _ ?_ ?_ ?_).mono ?_
  · rw [round]
    exact Nat.mul_mod_left _ _
  · simp only [round]
    omega
  · simp only [round, PGSIZE]
    omega
  · rintro m ⟨(kernel : m.kernelEnd = kernelEnd), count⟩
    refine ⟨kernel, fun pg => ?_⟩
    rw [count, ram]
    have same : (pg % PGSIZE = 0 ∧ PGROUNDUP kernelEnd ≤ pg ∧ pg < PHYSTOP) ↔ Valid m pg := by
      rw [Valid, kernel, round]
      exact aligned_above pg
    rw [if_congr same rfl rfl]
    exact Nat.zero_add _

/-- What the kernel leaves is on the free list once. -/
theorem boot_spec {kernelEnd kept : Nat} (below : kernelEnd ≤ PHYSTOP) :
    Yields (boot kernelEnd kept) fun m => ∀ pg,
      free m pg = (if pg ∈ m.freelist then 1 else 0) ∧ free m pg ≤ ram m pg := by
  refine (kinit_spec below).bind ?_
  rintro m ⟨-, count⟩
  refine yields_ok fun pg => ?_
  have fewer : (m.freelist.drop kept).count pg ≤ ram m pg :=
    ((List.drop_sublist kept _).count_le pg).trans_eq (count pg)
  have one := fewer.trans (ram_le_one m pg)
  refine ⟨?_, fewer⟩
  change (m.freelist.drop kept).count pg = if pg ∈ m.freelist.drop kept then 1 else 0
  split
  next there => exact le_antisymm one (List.count_pos_iff.mpr there)
  next gone => exact List.count_eq_zero.mpr gone

theorem uvmfirst_spec (shape : Shape t 0) (owns : Owns t m) :
    Yields (uvmfirst t m) fun r => ∀ t' m', r = some (t', m') → Shape t' 1 ∧ Even t m t' m' := by
  unfold uvmfirst
  cases taken : kalloc m with
  | mk r m₁ =>
    cases r with
    | none => exact yields_ok nofun
    | some mem =>
      have map {perm : Perm} (readable : perm.r = true) :=
        map_user shape owns readable taken
      simp only [Nat.zero_mul] at map
      refine (map rfl).bind ?_
      rintro ⟨ok, t', m'⟩ ⟨fine, -⟩
      cases ok with
      | false => exact yields_ok nofun
      | true =>
        refine yields_ok ?_
        rintro _ _ ⟨⟩
        exact fine rfl

theorem userinit_spec (inRam : ∀ pg, free m pg ≤ ram m pg) :
    Yields (userinit (n := n) trampoline m) fun r => ∀ s, r = some s → Inv (free m) s := by
  have start : Inv (free m) (⟨m, fun _ => .free, none⟩ : State n) := by
    refine ⟨inRam, fun _ => fits_free, fun pg => ?_⟩
    have none_ : ∑ p : Fin n, owned (.free : Proc n) pg = 0 :=
      Finset.sum_eq_zero fun _ _ => owned_free pg
    exact congrArg (free m pg + ·) none_
  unfold userinit
  refine (allocproc_spec start).bind ?_
  rintro ⟨r, s⟩ ⟨inv, -, made⟩
  simp only at inv made
  cases r with
  | none => exact yields_ok nofun
  | some p =>
    obtain ⟨-, used, empty⟩ := made p rfl
    obtain ⟨trapframe, t, tf, table, -, shape⟩ := (inv.fits p).used (by rw [used]; exact nofun)
    rw [empty, pages_zero] at shape
    simp only [table]
    refine (uvmfirst_spec shape ((inv.affords p).owns table)).bind ?_
    rintro r fine
    cases r with
    | none => exact yields_ok nofun
    | some r =>
      obtain ⟨shape', even⟩ := fine r.1 r.2 rfl
      have one : pages PGSIZE = 1 := by
        have mul := pages_mul (n := 1) (by decide)
        rwa [Nat.one_mul] at mul
      have small : PGSIZE ≤ USER * PGSIZE := Nat.le_mul_of_pos_left _ (by decide)
      rw [← one] at shape'
      have put := inv.put (fits_used (x := { s.proc p with
        pagetable := some r.1, sz := PGSIZE, state := .runnable }) nofun tf rfl small shape')
        (Even.moves even table rfl rfl)
      refine yields_ok ?_
      rintro _ ⟨⟩
      exact ⟨put.inRam, put.fits, put.once⟩

/-- Pages by their numbers and by their addresses. -/
theorem mapped_iff {sz v : Nat} (small : sz ≤ USER * PGSIZE) :
    v < pages sz ∨ v = USER ∨ v = USER + 1 ↔
      v * PGSIZE < PGROUNDUP sz ∨ v * PGSIZE = TRAPFRAME ∨ v * PGSIZE = TRAMPOLINE := by
  have top : TRAMPOLINE = (USER + 1) * PGSIZE := rfl
  have frame : TRAPFRAME = USER * PGSIZE := rfl
  have positive : 0 < PGSIZE := by decide
  rw [top, frame, PGROUNDUP_eq small, ← pages_eq small, Nat.mul_lt_mul_right positive,
    Nat.mul_left_inj positive.ne', Nat.mul_left_inj positive.ne']

/-- Whatever the calls are and whichever `kalloc` fails, a process maps the pages below the
end of its memory and the two at the top; each page that the kernel has left is on the free
list or belongs to one process, in one place; only `exit` of the first process panics; and
`wait` puts each page of the process that it frees on the free list once. -/
theorem pages_accounted {kernelEnd kept : Nat} {s₀ : State n} (below : kernelEnd ≤ PHYSTOP)
    (left : boot kernelEnd kept = .ok m) (up : userinit trampoline m = .ok (some s₀))
    (es : List (Event n)) :
    (∀ panic, run (step trampoline) s₀ es = .error panic → panic = .initExiting) ∧
    ∀ s, run (step trampoline) s₀ es = .ok s →
      (∀ p, (s.proc p).state ≠ .unused → ∃ trapframe t,
        (s.proc p).trapframe = some trapframe ∧ (s.proc p).pagetable = some t ∧
        (s.proc p).sz ≤ TRAPFRAME ∧
        ∀ v < 512 ^ 3, find t v ≠ none ↔ v * PGSIZE < PGROUNDUP (s.proc p).sz ∨
          v * PGSIZE = TRAPFRAME ∨ v * PGSIZE = TRAMPOLINE) ∧
      (∀ p, (s.proc p).state = .unused →
        (s.proc p).trapframe = none ∧ (s.proc p).pagetable = none) ∧
      (∀ pg, s.memory.freelist.count pg + ∑ p, owned (s.proc p) pg =
        if pg ∈ m.freelist then 1 else 0) ∧
      ∀ p copied pp s', wait s p copied = .ok (some pp, s') →
        s'.proc pp = .free ∧
        ∀ pg, owned (s.proc pp) pg ≠ 0 → s'.memory.freelist.count pg = 1 := by
  have pages_ := (boot_spec below).of_ok left
  have start : Inv (free m) s₀ := (userinit_spec fun pg => (pages_ pg).2).of_ok up s₀ rfl
  refine ⟨fun panic stops => ?_, fun s runs => ?_⟩
  · by_contra other
    exact run_ne_error (fun s e t inv h => inv_step inv h)
      (fun s e inv => step_panic inv other) start stops
  · have inv := run_invariant_all (fun s e t inv h => inv_step inv h) start runs
    refine ⟨fun p live => ?_, fun p gone => ?_, fun pg => ?_, fun p copied pp s' h => ?_⟩
    · obtain ⟨trapframe, t, tf, table, small, shape⟩ := (inv.fits p).used live
      refine ⟨trapframe, t, tf, table, small, fun v hv => (shape.mapped v hv).trans ?_⟩
      exact mapped_iff small
    · obtain ⟨noFrame, noTable, -⟩ := (inv.fits p).unused gone
      exact ⟨noFrame, noTable⟩
    · exact (inv.once pg).trans (pages_ pg).1
    · exact ((wait_spec inv copied).of_ok h).2 pp rfl

theorem pages_accounted_seven :
    ∃ m, ∃ s₀ : State 2, boot (PHYSTOP - 10 * PGSIZE) 3 = .ok m ∧
      userinit 0x80007000 m = .ok (some s₀) ∧
      ∀ es, (∀ panic, run (step 0x80007000) s₀ es = .error panic → panic = .initExiting) ∧
        ∀ s, run (step 0x80007000) s₀ es = .ok s → ∀ pg,
          s.memory.freelist.count pg + ∑ p, owned (s.proc p) pg =
            if pg ∈ m.freelist then 1 else 0 := by
  have starts : ((boot (PHYSTOP - 10 * PGSIZE) 3 >>=
      userinit (n := 2) 0x80007000).toOption.join).isSome = true := by decide +kernel
  obtain ⟨s₀, first⟩ := Option.isSome_iff_exists.mp starts
  cases left : boot (PHYSTOP - 10 * PGSIZE) 3 with
  | error panic =>
    rw [left] at first
    cases first
  | ok m =>
    rw [left] at first
    change (userinit (n := 2) 0x80007000 m).toOption.join = some s₀ at first
    cases up : userinit (n := 2) 0x80007000 m with
    | error panic =>
      rw [up] at first
      cases first
    | ok r =>
      rw [up] at first
      obtain rfl : r = some s₀ := first
      have accounts := pages_accounted (Nat.sub_le _ _) left up
      exact ⟨m, s₀, rfl, up, fun es => ⟨(accounts es).1, fun s runs =>
        ((accounts es).2 s runs).2.2.1⟩⟩

end MemoryAccounts
