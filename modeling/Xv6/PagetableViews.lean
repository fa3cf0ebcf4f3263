import Xv6.Lib.Outcomes
import Xv6.Lib.Tallies
import Xv6.Pagetables

/-!
# What a page table maps, and which pages it consists of

Two views of a page table carry the accounts: `find` gives the mapping of a
virtual page, `nodes` counts how often a page serves as a page of the table.
`walk` makes table pages but maps nothing; `store` maps but makes no table page.
-/

namespace PagetableViews
open Pagetables Outcomes Function

variable {E : Type} {t : Pagetable} {m : Memory} {pg : Page} {v w : Nat}

/-- The entry that an address leads to, if the table pages are there. -/
def slot (t : Pagetable) (va : Nat) : Option (Option Pte) :=
  (t.pte (PX 2 va)).bind fun mid => (mid.pte (PX 1 va)).map fun low => low.pte (PX 0 va)

/-- The mapping of a virtual page. -/
def find (t : Pagetable) (v : Nat) : Option Pte :=
  (t.pte (PX 2 (v * PGSIZE))).bind fun mid =>
    (mid.pte (PX 1 (v * PGSIZE))).bind fun low => low.pte (PX 0 (v * PGSIZE))

/-- The page of a node and the pages below it. -/
def nodesOf (below : E → Nat) (pg : Page) (n : Node E) : Nat :=
  (if n.page = pg then 1 else 0) + ∑ i, (n.pte i).elim 0 below

/-- How often a page is a page of the table. -/
def nodes (t : Pagetable) (pg : Page) : Nat :=
  nodesOf (nodesOf (nodesOf (fun _ => 0) pg) pg) pg t

/-- The number of the page of `TRAPFRAME`; the pages below are the user's. -/
def USER : Nat := TRAPFRAME / PGSIZE

/-- How often the user's part of a table maps to a page. -/
def users (t : Pagetable) (pg : Page) : Nat :=
  ∑ v ∈ Finset.range USER, if (find t v).map Pte.pa = some pg then 1 else 0

/-- How often a page is on the free list. -/
def free (m : Memory) (pg : Page) : Nat := m.freelist.count pg

/-- A page that `kfree` takes. -/
def Valid (m : Memory) (pg : Page) : Prop :=
  pg % PGSIZE = 0 ∧ m.kernelEnd ≤ pg ∧ pg < PHYSTOP

theorem kalloc_spec (m : Memory) :
    (kalloc m).2.kernelEnd = m.kernelEnd ∧
    ∀ pg, free m pg = free (kalloc m).2 pg + if (kalloc m).1 = some pg then 1 else 0 := by
  unfold kalloc
  split
  · exact ⟨rfl, fun pg => rfl⟩
  · split
    next none_ => exact ⟨rfl, fun pg => by simp [free, none_]⟩
    next r rest some_ =>
      refine ⟨rfl, fun pg => ?_⟩
      simp only [free, some_, List.count_cons, Option.some.injEq, beq_iff_eq]

theorem kfree_spec {pa : Page} (valid : Valid m pa) :
    Yields (kfree pa m) fun m' => m'.kernelEnd = m.kernelEnd ∧
      ∀ pg, free m' pg = free m pg + if pa = pg then 1 else 0 := by
  have fine : ¬ (pa % PGSIZE ≠ 0 ∨ pa < m.kernelEnd ∨ PHYSTOP ≤ pa) := by
    obtain ⟨aligned, low, high⟩ := valid
    rintro (odd | below | above)
    · exact odd aligned
    · exact Nat.not_le_of_lt below low
    · exact Nat.not_le_of_lt high above
  rw [kfree, if_neg fine]
  refine yields_ok ⟨rfl, fun pg => ?_⟩
  simp only [free, List.count_cons, beq_iff_eq]

theorem PX_two (v : Nat) : (PX 2 (v * PGSIZE)).val = v / 262144 % 512 := by
  simp only [PX, PGSIZE]
  omega

theorem PX_one (v : Nat) : (PX 1 (v * PGSIZE)).val = v / 512 % 512 := by
  simp only [PX, PGSIZE]
  omega

theorem PX_zero (v : Nat) : (PX 0 (v * PGSIZE)).val = v % 512 := by
  simp only [PX, PGSIZE]
  omega

/-- The three indices tell the pages apart. -/
theorem PX_inj (hv : v < 512 ^ 3) (hw : w < 512 ^ 3)
    (two : PX 2 (w * PGSIZE) = PX 2 (v * PGSIZE)) (one : PX 1 (w * PGSIZE) = PX 1 (v * PGSIZE))
    (zero : PX 0 (w * PGSIZE) = PX 0 (v * PGSIZE)) : w = v := by
  have two := congrArg Fin.val two
  have one := congrArg Fin.val one
  have zero := congrArg Fin.val zero
  rw [PX_two, PX_two] at two
  rw [PX_one, PX_one] at one
  rw [PX_zero, PX_zero] at zero
  omega

@[simp] theorem write_page (n : Node E) (i : Fin 512) (e : Option E) :
    (n.write i e).page = n.page := rfl

theorem write_pte (n : Node E) (i k : Fin 512) (e : Option E) :
    (n.write i e).pte k = if k = i then e else n.pte k := update_apply ..

theorem write_same (n : Node E) (i : Fin 512) : n.write i (n.pte i) = n := by
  cases n
  simp [Node.write]

theorem nodesOf_write (below : E → Nat) (pg : Page) (n : Node E) (i : Fin 512) (e : Option E) :
    nodesOf below pg (n.write i e) + (n.pte i).elim 0 below =
      nodesOf below pg n + e.elim 0 below := by
  have change := Tallies.sum_update (fun e : Option E => e.elim 0 below) n.pte i e
  change (if n.page = pg then 1 else 0) + ∑ k, (update n.pte i e k).elim 0 below +
    (n.pte i).elim 0 below = (if n.page = pg then 1 else 0) + ∑ k, (n.pte k).elim 0 below +
      e.elim 0 below
  omega

/-- Mappings do not count. -/
theorem nodesOf_leaf (pg : Page) (n : Node E) (i : Fin 512) (e : Option E) :
    nodesOf (fun _ => 0) pg (n.write i e) = nodesOf (fun _ => 0) pg n := by
  have none_ (e : Option E) : e.elim 0 (fun _ => 0) = 0 := by cases e <;> rfl
  have change := nodesOf_write (fun _ => 0) pg n i e
  rw [none_ (n.pte i), none_ e, Nat.add_zero, Nat.add_zero] at change
  exact change

theorem nodesOf_empty (below : E → Nat) (pg page : Page) :
    nodesOf below pg (.empty page) = if page = pg then 1 else 0 := by
  have none_ : ∑ i, ((Node.empty page : Node E).pte i).elim 0 below = 0 :=
    Finset.sum_eq_zero fun _ _ => rfl
  rw [nodesOf, none_, Nat.add_zero]
  rfl

/-- One level of `walk` moves at most one page from the free list into the table, and the new
node is empty. -/
theorem descend_spec {alloc : Bool} {pte r : Option (Node E)} {m' : Memory}
    (h : descend alloc pte m = (r, m')) :
    m'.kernelEnd = m.kernelEnd ∧
    (∀ below pg, r.elim 0 (nodesOf below pg) + free m' pg =
      pte.elim 0 (nodesOf below pg) + free m pg) ∧
    (∀ c, r = some c → ∀ i, c.pte i = pte.bind fun n => n.pte i) ∧
    (r = none → pte = none) := by
  cases pte with
  | some child =>
    obtain ⟨rfl, rfl⟩ := Prod.mk.inj h
    refine ⟨rfl, fun below pg => rfl, ?_, nofun⟩
    rintro c same i
    cases same
    rfl
  | none =>
    simp only [descend] at h
    have spec := kalloc_spec m
    split at h
    · split at h
      next m₁ none_ =>
        obtain ⟨rfl, rfl⟩ := Prod.mk.inj h
        rw [none_] at spec
        exact ⟨spec.1, fun below pg => by simp [spec.2 pg], nofun, fun _ => rfl⟩
      next page m₁ some_ =>
        obtain ⟨rfl, rfl⟩ := Prod.mk.inj h
        rw [some_] at spec
        refine ⟨spec.1, fun below pg => ?_, ?_, nofun⟩
        · simp only [Option.elim_some, Option.elim_none, nodesOf_empty, spec.2 pg,
            Option.some.injEq]
          omega
        · rintro c same i
          cases same
          rfl
    · obtain ⟨rfl, rfl⟩ := Prod.mk.inj h
      exact ⟨rfl, fun below pg => rfl, nofun, fun _ => rfl⟩

theorem walk_false {va : Nat} (low : va < MAXVA) :
    walk t va false m = .ok (slot t va, t, m) := by
  have below : ¬ MAXVA ≤ va := Nat.not_le_of_lt low
  rw [walk, if_neg below, slot]
  cases first : t.pte (PX 2 va) with
  | none => rfl
  | some mid =>
    have back := write_same t (PX 2 va)
    rw [first] at back
    cases second : mid.pte (PX 1 va) with
    | none => simp only [descend, second, back, Option.bind_some, Option.map_none,
        Bool.false_eq_true, if_false]
    | some low_ =>
      have back' := write_same mid (PX 1 va)
      rw [second] at back'
      simp only [descend, second, back, back', Option.bind_some, Option.map_some]

/-- `walk` that allocates maps nothing, and its result is the entry of the page. -/
theorem walk_true (low : v * PGSIZE < MAXVA) :
    Yields (walk t (v * PGSIZE) true m) fun r =>
      r.2.2.kernelEnd = m.kernelEnd ∧ (∀ w, find r.2.1 w = find t w) ∧
      (∀ pg, nodes r.2.1 pg + free r.2.2 pg = nodes t pg + free m pg) ∧
      (r.1 = none ∨ r.1 = slot r.2.1 (v * PGSIZE)) := by
  rw [walk, if_neg (Nat.not_le_of_lt low)]
  split
  next m₁ first =>
    obtain ⟨kernel, count, -, empty⟩ := descend_spec first
    have gone := empty rfl
    refine yields_ok ⟨kernel, fun w => rfl, fun pg => ?_, .inl rfl⟩
    have same := count (nodesOf (fun _ => 0) pg) pg
    rw [gone] at same
    simp only [Option.elim_none] at same ⊢
    omega
  next mid m₁ first =>
    obtain ⟨kernel, count, entry, -⟩ := descend_spec first
    have entries := entry mid rfl
    -- a mapping in the new table is one in the old
    have kept (k : Fin 512) (g : Node Pte → Option Pte) (b : Fin 512) :
        ((t.write (PX 2 (v * PGSIZE)) (some mid)).pte k).bind (fun mid => (mid.pte b).bind g) =
          (t.pte k).bind fun mid => (mid.pte b).bind g := by
      rw [write_pte]
      split
      next same =>
        rw [Option.bind_some, entries, same, Option.bind_assoc]
      next => rfl
    split
    next m₂ second =>
      obtain ⟨kernel', count', -, empty⟩ := descend_spec second
      have gone := empty rfl
      refine yields_ok ⟨kernel'.trans kernel, fun w => kept _ _ _, fun pg => ?_, .inl rfl⟩
      have outer := count (nodesOf (fun _ => 0) pg) pg
      have inner := count' (fun _ => 0) pg
      have change := nodesOf_write (nodesOf (nodesOf (fun _ => 0) pg) pg) pg t
        (PX 2 (v * PGSIZE)) (some mid)
      rw [gone] at inner
      simp only [Option.elim_none, Option.elim_some, nodes] at outer inner change ⊢
      omega
    next low_ m₂ second =>
      obtain ⟨kernel', count', entry', -⟩ := descend_spec second
      have entries' := entry' low_ rfl
      set mid' := mid.write (PX 1 (v * PGSIZE)) (some low_) with hmid
      have kept' (b c : Fin 512) :
          (mid'.pte b).bind (fun low => low.pte c) = (mid.pte b).bind fun low => low.pte c := by
        rw [hmid, write_pte]
        split
        next same => rw [Option.bind_some, entries', same]
        next => rfl
      refine yields_ok ⟨kernel'.trans kernel, fun w => ?_, fun pg => ?_, .inr ?_⟩
      · have step := kept (PX 2 (w * PGSIZE)) (fun low => low.pte (PX 0 (w * PGSIZE)))
          (PX 1 (w * PGSIZE))
        rw [find, find, ← step, write_pte, write_pte]
        split
        next => exact kept' _ _
        next => rfl
      · have outer := count (nodesOf (fun _ => 0) pg) pg
        have inner := count' (fun _ => 0) pg
        have change := nodesOf_write (nodesOf (nodesOf (fun _ => 0) pg) pg) pg t
          (PX 2 (v * PGSIZE)) (some mid')
        have change' := nodesOf_write (nodesOf (fun _ => 0) pg) pg mid
          (PX 1 (v * PGSIZE)) (some low_)
        rw [← hmid] at change'
        simp only [Option.elim_some, nodes] at outer inner change change' ⊢
        omega
      · simp only [slot, write_pte, if_true, Option.bind_some, hmid, Option.map_some]

theorem slot_of_find {pte : Pte} (h : find t v = some pte) :
    slot t (v * PGSIZE) = some (some pte) := by
  unfold find at h
  obtain ⟨mid, first, h⟩ := Option.bind_eq_some_iff.mp h
  obtain ⟨low, second, h⟩ := Option.bind_eq_some_iff.mp h
  simp only [slot, first, Option.bind_some, second, Option.map_some, h]

theorem find_of_slot {e : Option Pte} (h : slot t (v * PGSIZE) = some e) : find t v = e := by
  unfold slot at h
  obtain ⟨mid, first, h⟩ := Option.bind_eq_some_iff.mp h
  obtain ⟨low, second, h⟩ := Option.map_eq_some_iff.mp h
  simp only [find, first, Option.bind_some, second, h]

/-- Where `walk` found an entry, writing it changes that mapping only. -/
theorem store_spec {e : Option Pte} (there : slot t (v * PGSIZE) ≠ none) (hv : v < 512 ^ 3) :
    (∀ w < 512 ^ 3, find (store t (v * PGSIZE) e) w = if w = v then e else find t w) ∧
    ∀ pg, nodes (store t (v * PGSIZE) e) pg = nodes t pg := by
  obtain ⟨old, there⟩ := Option.ne_none_iff_exists'.mp there
  unfold slot at there
  obtain ⟨mid, first, there⟩ := Option.bind_eq_some_iff.mp there
  obtain ⟨low, second, -⟩ := Option.map_eq_some_iff.mp there
  set low' := low.write (PX 0 (v * PGSIZE)) e with hlow
  set mid' := mid.write (PX 1 (v * PGSIZE)) (some low') with hmid
  have same : store t (v * PGSIZE) e = t.write (PX 2 (v * PGSIZE)) (some mid') := by
    simp only [store, first, second]
    rfl
  rw [same]
  constructor
  · intro w hw
    simp only [find, write_pte]
    split
    next two =>
      rw [two, first, Option.bind_some, Option.bind_some, hmid, write_pte]
      split
      next one =>
        rw [one, second, Option.bind_some, Option.bind_some, hlow, write_pte]
        split
        next zero => rw [if_pos (PX_inj hv hw two one zero)]
        next zero =>
          rw [if_neg]
          rintro rfl
          exact zero rfl
      next one =>
        rw [if_neg]
        rintro rfl
        exact one rfl
    next two =>
      rw [if_neg]
      rintro rfl
      exact two rfl
  · intro pg
    have c₂ := nodesOf_write (nodesOf (nodesOf (fun _ => 0) pg) pg) pg t
      (PX 2 (v * PGSIZE)) (some mid')
    have c₁ := nodesOf_write (nodesOf (fun _ => 0) pg) pg mid (PX 1 (v * PGSIZE)) (some low')
    have c₀ := nodesOf_leaf pg low (PX 0 (v * PGSIZE)) e
    rw [first] at c₂
    rw [second, ← hmid] at c₁
    rw [← hlow] at c₀
    simp only [Option.elim_some, nodes] at c₂ c₁ ⊢
    omega

end PagetableViews
