import Xv6.PackedMaps
import Xv6.PagetableViews

/-!
# Page tables in memory as trees

The pages of a well-formed table read back as a `Pagetable`. On it the functions of
`Pagetables` return what those of `PackedTables` return, and end with the tree that is
then in memory.
-/

namespace PackedTrees

open Function Outcomes PackedMaps PackedTables RadixTables
open Pagetables (Node Pagetable Perm Memory)
open UserCopies hiding entry walk

variable {E : Type} {W W' : Words} {s s' : Ram} {t : Pagetable} {m : Memory}
  {root page p q x va v : Nat} {i j k : Fin 512} {e : Pte} {contents : Fin 512 → Pte}

/-- The permissions as bits of an entry. -/
def bits (perm : Perm) : Pte :=
  (if perm.r then PTE_R else 0) ||| (if perm.w then PTE_W else 0) |||
    (if perm.x then PTE_X else 0) ||| (if perm.u then PTE_U else 0)

def perms (flags : Pte) : Perm :=
  ⟨flags &&& PTE_R ≠ 0, flags &&& PTE_W ≠ 0, flags &&& PTE_X ≠ 0, flags &&& PTE_U ≠ 0⟩

theorem perms_bits (perm : Perm) : perms (bits perm ||| PTE_V) = perm := by
  obtain ⟨r, w, x, u⟩ := perm
  cases r <;> cases w <;> cases x <;> cases u <;> decide

theorem bits_fits (perm : Perm) : bits perm &&& 0x3FF = bits perm := by
  obtain ⟨r, w, x, u⟩ := perm
  cases r <;> cases w <;> cases x <;> cases u <;> decide

/-- The test of `uvmunmap` for an entry that is no leaf. -/
theorem bits_eq_V (perm : Perm) :
    bits perm ||| PTE_V = PTE_V ↔ perm = ⟨false, false, false, false⟩ := by
  obtain ⟨r, w, x, u⟩ := perm
  cases r <;> cases w <;> cases x <;> cases u <;> decide

/-- What an entry of a lowest page is in a tree. -/
def leaf (e : Pte) : Option Pagetables.Pte := (maps e).map fun found => ⟨found.1, perms found.2⟩

/-- A page, given what its entries are in a tree. -/
def node (read : Pte → Option E) (W : Words) (page : Nat) : Node E :=
  ⟨page, fun i => read (W page i)⟩

def low (W : Words) : Nat → Node Pagetables.Pte := node leaf W

def mid (W : Words) : Nat → Node (Node Pagetables.Pte) := node (fun e => (next e).map (low W)) W

/-- The tree of the table at `root`. -/
def tree (W : Words) (root : Nat) : Pagetable := node (fun e => (next e).map (mid W)) W root

theorem next_some (leads : next e = some p) : e &&& PTE_V ≠ 0 ∧ PTE2PA e = p := by
  unfold next at leads
  split at leads
  · exact ⟨‹_›, Option.some.inj leads⟩
  · cases leads

theorem next_none (stops : next e = none) : ¬ e &&& PTE_V ≠ 0 := by
  intro valid
  rw [next, if_pos valid] at stops
  cases stops

theorem node_update {read read' : Pte → Option E} (other : p ≠ x)
    (same : ∀ k, read' (W p k) = read (W p k)) :
    node read' (update W x contents) p = node read W p := by
  simp only [node, update_of_ne other, same]

theorem node_write {read read' : Pte → Option E} (here : W' p = update (W p) i e)
    (others : ∀ k, k ≠ i → read' (W p k) = read (W p k)) :
    node read' W' p = (node read W p).write i (read' e) := by
  simp only [node, Node.write, here, Node.mk.injEq, true_and]
  funext k
  by_cases at_ : k = i
  · subst at_
    rw [update_self, update_self]
  · rw [update_of_ne at_, update_of_ne at_, others k at_]

theorem node_empty {read : Pte → Option E} (clear : read 0 = none) (zero : ∀ k, W page k = 0) :
    node read W page = .empty page := by
  simp only [node, Node.empty, zero, clear]

/-- A page that the table does not lead to may change. -/
theorem mid_update (off : ∀ js : List (Fin 512), js.length ≤ 1 → follow next W p js ≠ some x) :
    mid (update W x contents) p = mid W p := by
  refine node_update (fun same => off [] (Nat.zero_le 1) (congrArg some same)) fun k => ?_
  cases leads : next (W p k) with
  | none => rfl
  | some q =>
    refine congrArg some (node_update (fun same => off [k] le_rfl ?_) fun _ => rfl)
    rw [follow, leads, same]
    rfl

theorem tree_update (unused : Unused next W root 2 x) :
    tree (update W x contents) root = tree W root := by
  refine node_update (fun same => unused [] (Nat.zero_le 2) (congrArg some same)) fun k => ?_
  cases leads : next (W root k) with
  | none => rfl
  | some p =>
    refine congrArg some (mid_update fun js short same => ?_)
    refine unused (k :: js) (Nat.succ_le_succ short) ?_
    rw [follow, leads]
    exact same

section

variable (distinct : Distinct next W root 2)

include distinct

/-- A page below the entry `i` of the root changes. -/
theorem tree_below {is : List (Fin 512)} (there : follow next W root (i :: is) = some x)
    (short : is.length ≤ 1) :
    tree (update W x contents) root =
      (tree W root).write i ((next (W root i)).map (mid (update W x contents))) := by
  have off (js : List (Fin 512)) (less : js.length ≤ 2) (other : js ≠ i :: is) :
      follow next W root js ≠ some x :=
    fun same => other (distinct js (i :: is) x less (Nat.succ_le_succ short) same there)
  refine node_write ?_ fun k other => ?_
  · rw [update_eq_self]
    exact update_of_ne (fun same => off [] (Nat.zero_le 2) (List.cons_ne_nil _ _).symm (congrArg some same)) ..
  · cases leads : next (W root k) with
    | none => rfl
    | some p =>
      refine congrArg some (mid_update fun js less same => ?_)
      refine off (k :: js) (Nat.succ_le_succ less) (fun same => other (List.cons.inj same).1) ?_
      rw [follow, leads]
      exact same

/-- A page below the entry `j` of a page in the middle changes. -/
theorem mid_below (above : follow next W root [i] = some p) (leads : next (W p j) = some x) :
    mid (update W x contents) p =
      (mid W p).write j ((next (W p j)).map (low (update W x contents))) := by
  have path_ (k : Fin 512) : follow next W root [i, k] = next (W p k) := by
    have split : follow next W root ([i] ++ [k]) = _ := follow_concat root [i] k
    rw [above] at split
    exact split
  have there : follow next W root [i, j] = some x := (path_ j).trans leads
  refine node_write ?_ fun k other => ?_
  · rw [update_eq_self]
    refine update_of_ne (fun same => ?_) ..
    have meet := distinct [i] [i, j] x (Nat.le_succ 1) le_rfl (same ▸ above) there
    cases meet
  · cases leads' : next (W p k) with
    | none => rfl
    | some q =>
      refine congrArg some (node_update (fun same => ?_) fun _ => rfl)
      have meet := distinct [i, k] [i, j] x le_rfl le_rfl
        ((path_ k).trans (leads'.trans (congrArg some same))) there
      exact other (List.cons.inj (List.cons.inj meet).2).1

end

section

variable (distinct : Distinct next W root 2) (zero : ∀ k, W page k = 0)
  (unused : Unused next W root 2 page) (leads : next e = some page)

include zero

theorem low_empty : low W page = .empty page := node_empty (by rw [leaf, maps_zero]; rfl) zero

theorem mid_empty : mid W page = .empty page := node_empty (by rw [next_zero]; rfl) zero

include distinct unused leads

/-- An empty page is hung at an entry of the root. -/
theorem tree_grow_root :
    tree (RadixTables.write W root i e) root = (tree W root).write i (some (.empty page)) := by
  have other : page ≠ root := fun same => unused [] (Nat.zero_le 2) (congrArg some same.symm)
  have kept : RadixTables.write W root i e page = W page := write_other other
  have grown : (next e).map (mid (RadixTables.write W root i e)) = some (.empty page) := by
    rw [leads, Option.map_some, mid_empty fun k => (congrFun kept k).trans (zero k)]
  rw [← grown]
  refine node_write write_self fun k _ => ?_
  cases leads' : next (W root k) with
  | none => rfl
  | some p =>
    refine congrArg some (mid_update fun js less same => ?_)
    have meet := distinct (k :: js) [] root (Nat.succ_le_succ less) (Nat.zero_le 2) (by
      rw [follow, leads']
      exact same) rfl
    cases meet

/-- An empty page is hung at an entry of a page in the middle. -/
theorem tree_grow_mid (above : follow next W root [i] = some p) :
    tree (RadixTables.write W p j e) root =
      (tree W root).write i (some ((mid W p).write j (some (.empty page)))) := by
  have apart : page ≠ p := fun same => unused [i] (Nat.le_succ 1) (same ▸ above)
  have kept : RadixTables.write W p j e page = W page := write_other apart
  have first : next (W root i) = some p := (follow_singleton root i).symm.trans above
  have grown : (next e).map (low (RadixTables.write W p j e)) = some (.empty page) := by
    rw [leads, Option.map_some, low_empty fun k => (congrFun kept k).trans (zero k)]
  have inner : mid (RadixTables.write W p j e) p = (mid W p).write j (some (.empty page)) := by
    rw [← grown]
    refine node_write write_self fun k _ => ?_
    cases leads' : next (W p k) with
    | none => rfl
    | some q =>
      refine congrArg some (node_update (fun same => ?_) fun _ => rfl)
      have meet := distinct [i, k] [i] p le_rfl (Nat.le_succ 1) (by
        rw [follow, first, Option.bind_some, follow, leads', same]
        rfl) above
      cases meet
  rw [RadixTables.write, tree_below distinct above (Nat.zero_le 1), first, Option.map_some]
  exact congrArg (fun child => (tree W root).write i (some child)) inner

end

/-- An entry of a lowest page is written. -/
theorem tree_write (distinct : Distinct next W root 2)
    (there : follow next W root (path va) = some q) :
    tree (RadixTables.write W q (index 0 va) e) root =
      Pagetables.store (tree W root) va (leaf e) := by
  unfold path at there
  have first : ∃ p, next (W root (index 2 va)) = some p ∧ next (W p (index 1 va)) = some q := by
    rw [follow] at there
    obtain ⟨p, leads, there⟩ := Option.bind_eq_some_iff.mp there
    exact ⟨p, leads, (follow_singleton p _).symm.trans there⟩
  obtain ⟨p, first, second⟩ := first
  have above : follow next W root [index 2 va] = some p := (follow_singleton root _).trans first
  have top : (tree W root).pte (Pagetables.PX 2 va) = some (mid W p) :=
    (congrArg (Option.map (mid W)) first :)
  have below : (mid W p).pte (Pagetables.PX 1 va) = some (low W q) :=
    (congrArg (Option.map (low W)) second :)
  have lowest : low (RadixTables.write W q (index 0 va) e) q =
      (low W q).write (index 0 va) (leaf e) := node_write write_self fun _ _ => rfl
  simp only [Pagetables.store, top, below]
  rw [RadixTables.write, tree_below distinct there le_rfl, first, Option.map_some,
    mid_below distinct above second, second, Option.map_some]
  exact congrArg (fun child => (tree W root).write _ (some ((mid W p).write _ (some child)))) lowest

/-- `m` has the free pages of `s`, and its `kalloc` fails only when there are none. -/
structure Holds (m : Memory) (s : Ram) : Prop where
  freelist : m.freelist = s.freelist
  kernelEnd : m.kernelEnd = s.kernelEnd
  fails : ∀ k, m.fails k = false

theorem kalloc_holds {r : Option Nat} (holds : Holds m s) (taken : kalloc s = (r, s')) :
    ∃ m', Pagetables.kalloc m = (r, m') ∧ Holds m' s' := by
  have list := holds.freelist
  unfold kalloc at taken
  split at taken
  next none_ =>
    obtain ⟨rfl, rfl⟩ := Prod.mk.inj taken
    refine ⟨{ m with calls := m.calls + 1 }, ?_, list, holds.kernelEnd, holds.fails⟩
    simp only [Pagetables.kalloc, holds.fails, Bool.false_eq_true, if_false, list, none_]
  next page rest some_ =>
    obtain ⟨rfl, rfl⟩ := Prod.mk.inj taken
    refine ⟨{ m with calls := m.calls + 1, freelist := rest }, ?_, rfl, holds.kernelEnd,
      holds.fails⟩
    simp only [Pagetables.kalloc, holds.fails, Bool.false_eq_true, if_false, list, some_]

theorem write_write (n : Node E) (i : Fin 512) (a b : Option E) :
    (n.write i a).write i b = n.write i b := by
  simp only [Node.write, update_idem]

/-- `walk` hangs an empty page at an entry of the root. -/
theorem grow_root (wf : WellFormed s root) (taken : kalloc s = (some page, s')) :
    let t := (s'.memset page 0).write root i (PA2PTE page ||| PTE_V)
    tree t.words root = (tree s.words root).write i (some (.empty page)) ∧
      mid t.words page = .empty page := by
  obtain ⟨-, unused, ⟨aligned, small⟩, words⟩ := kalloc_page wf taken
  have zero (k : Fin 512) : update s.words page (fun _ => 0) page k = 0 := by rw [update_self]
  have apart : page ≠ root := fun same => unused [] (Nat.zero_le 2) (congrArg some same.symm)
  intro t
  have same : t.words = RadixTables.write (update s.words page fun _ => 0) root i
    (PA2PTE page ||| PTE_V) := words ..
  rw [same]
  constructor
  · rw [tree_grow_root (wf.distinct.update unused) zero (unused.update unused)
      (next_page aligned small), tree_update unused]
  · refine mid_empty fun k => ?_
    rw [write_other apart]
    exact zero k

/-- `walk` hangs an empty page at an entry of a page in the middle. -/
theorem grow_mid (wf : WellFormed s root) (above : follow next s.words root [i] = some p)
    (taken : kalloc s = (some page, s')) :
    let t := (s'.memset page 0).write p j (PA2PTE page ||| PTE_V)
    tree t.words root =
        (tree s.words root).write i (some ((mid s.words p).write j (some (.empty page)))) ∧
      ∀ k, t.words page k = 0 := by
  obtain ⟨-, unused, ⟨aligned, small⟩, words⟩ := kalloc_page wf taken
  have zero (k : Fin 512) : update s.words page (fun _ => 0) page k = 0 := by rw [update_self]
  have apart : page ≠ p := fun same => unused [i] (Nat.le_succ 1) (same ▸ above)
  have off (js : List (Fin 512)) (short : js.length ≤ 1) :
      follow next s.words p js ≠ some page := by
    intro same
    refine unused (i :: js) (Nat.succ_le_succ short) ?_
    rw [follow, (follow_singleton root i).symm.trans above]
    exact same
  intro t
  have same : t.words = RadixTables.write (update s.words page fun _ => 0) p j
    (PA2PTE page ||| PTE_V) := words ..
  rw [same]
  constructor
  · have above' : follow next (update s.words page fun _ => 0) root [i] = some p :=
      (follow_update unused (by simp)).trans above
    rw [tree_grow_mid (wf.distinct.update unused) zero (unused.update unused)
      (next_page aligned small) above', tree_update unused, mid_update off]
  · intro k
    rw [write_other apart]
    exact zero k

/-- `walk` from the middle level on. -/
theorem walk_mid {alloc : Bool} (wf : WellFormed s root) (holds : Holds m s)
    (above : follow next s.words root [index 2 va] = some p) :
    ∃ r s' c m', walkLoop va alloc 1 p s = (r, s') ∧
      Pagetables.descend alloc ((mid s.words p).pte (index 1 va)) m = (c, m') ∧ Holds m' s' ∧
      ((r = none ∧ c = none ∧ s' = s) ∨
        ∃ q child, r = some (q, index 0 va) ∧ c = some child ∧
          child.pte (index 0 va) = leaf (s'.words q (index 0 va)) ∧
          tree s'.words root = (tree s.words root).write (index 2 va)
            (some ((mid s.words p).write (index 1 va) (some child)))) := by
  have first : next (s.words root (index 2 va)) = some p :=
    (follow_singleton root _).symm.trans above
  have top : (tree s.words root).pte (index 2 va) = some (mid s.words p) :=
    (congrArg (Option.map (mid s.words)) first :)
  cases leads : next (s.words p (index 1 va)) with
  | some q =>
    have below : (mid s.words p).pte (index 1 va) = some (low s.words q) :=
      (congrArg (Option.map (low s.words)) leads :)
    have valid := next_some leads
    refine ⟨some (q, index 0 va), s, some (low s.words q), m, ?_, ?_, holds,
      .inr ⟨q, low s.words q, rfl, rfl, rfl, ?_⟩⟩
    · rw [walkLoop, if_pos valid.1, valid.2]
      rfl
    · rw [below]
      rfl
    · rw [← below, PagetableViews.write_same, ← top, PagetableViews.write_same]
  | none =>
    have below : (mid s.words p).pte (index 1 va) = none :=
      (congrArg (Option.map (low s.words)) leads :)
    have invalid := next_none leads
    rw [below]
    cases alloc with
    | false =>
      refine ⟨none, s, none, m, ?_, rfl, holds, .inl ⟨rfl, rfl, rfl⟩⟩
      simp only [walkLoop, if_neg invalid, Bool.false_eq_true, not_false_eq_true, if_true]
    | true =>
      rcases taken : kalloc s with ⟨_ | page, s₁⟩
      · obtain ⟨m₁, same, holds₁⟩ := kalloc_holds holds taken
        obtain rfl := kalloc_none taken
        refine ⟨none, s₁, none, m₁, ?_, ?_, holds₁, .inl ⟨rfl, rfl, rfl⟩⟩
        · simp only [walkLoop, if_neg invalid, not_true_eq_false, if_false, taken]
        · simp only [Pagetables.descend, if_true, same]
      · obtain ⟨m₁, same, holds₁⟩ := kalloc_holds holds taken
        obtain ⟨grown, zero⟩ := grow_mid (j := index 1 va) wf above taken
        refine ⟨some (page, index 0 va), (s₁.memset page 0).write p (index 1 va)
          (PA2PTE page ||| PTE_V), some (.empty page), m₁, ?_, ?_,
          ⟨holds₁.freelist, holds₁.kernelEnd, holds₁.fails⟩,
          .inr ⟨page, .empty page, rfl, rfl, ?_, grown⟩⟩
        · simp only [walkLoop, if_neg invalid, not_true_eq_false, if_false, taken]
        · simp only [Pagetables.descend, if_true, same]
        · rw [zero, leaf, maps_zero]
          rfl

/-- The two levels of `walk` on a tree. -/
theorem walk_descends {alloc : Bool} {child : Node (Node Pagetables.Pte)}
    {c : Option (Node Pagetables.Pte)} {m₁ m₂ : Memory} (small : va < MAXVA)
    (first : Pagetables.descend alloc (t.pte (index 2 va)) m = (some child, m₁))
    (second : Pagetables.descend alloc (child.pte (index 1 va)) m₁ = (c, m₂)) :
    Pagetables.walk t va alloc m =
      .ok (c.map fun below => below.pte (index 0 va),
        t.write (index 2 va) (some (match c with
          | none => child
          | some below => child.write (index 1 va) (some below))), m₂) := by
  have bound : ¬ Pagetables.MAXVA ≤ va := Nat.not_le_of_lt small
  change Pagetables.descend alloc (t.pte (Pagetables.PX 2 va)) m = _ at first
  change Pagetables.descend alloc (child.pte (Pagetables.PX 1 va)) m₁ = _ at second
  simp only [Pagetables.walk, if_neg bound, first, second]
  cases c <;> rfl

/-- What `walk` does in memory it does on the tree. -/
def Follows (s : Ram) (m : Memory) (root va : Nat) (alloc : Bool) : Prop :=
  ∃ r s' m', walk root va alloc s = .ok (r, s') ∧ Holds m' s' ∧
    Pagetables.walk (tree s.words root) va alloc m =
      .ok (r.map fun at_ => leaf (s'.words at_.1 at_.2), tree s'.words root, m')

/-- `walk` has reached the page `p` in the middle, and the memory is `s'`. -/
theorem follows_below {alloc : Bool} {m₁ : Memory} (small : va < MAXVA) (wf : WellFormed s' root)
    (holds : Holds m₁ s') (above : follow next s'.words root [index 2 va] = some p)
    (walks : walkLoop va alloc 2 root s = walkLoop va alloc 1 p s')
    (descends : Pagetables.descend alloc ((tree s.words root).pte (index 2 va)) m =
      (some (mid s'.words p), m₁))
    (same : (tree s.words root).write (index 2 va) (some (mid s'.words p)) = tree s'.words root) :
    Follows s m root va alloc := by
  obtain ⟨r, s₂, c, m₂, walked, descended, holds₂, result⟩ := walk_mid wf holds above
  refine ⟨r, s₂, m₂, ?_, holds₂, ?_⟩
  · rw [walk, if_neg (Nat.not_le_of_lt small), walks, walked]
  · rw [walk_descends small descends descended]
    rcases result with ⟨rfl, rfl, rfl⟩ | ⟨q, child, rfl, rfl, found, written⟩
    · rw [same]
      rfl
    · rw [written, ← same, write_write]
      exact congrArg (fun e => Except.ok (some e, _, m₂)) found

theorem walk_follows {alloc : Bool} (wf : WellFormed s root) (holds : Holds m s)
    (small : va < MAXVA) : Follows s m root va alloc := by
  cases leads : next (s.words root (index 2 va)) with
  | some p =>
    have top : (tree s.words root).pte (index 2 va) = some (mid s.words p) :=
      (congrArg (Option.map (mid s.words)) leads :)
    have valid := next_some leads
    refine follows_below small wf holds ((follow_singleton root _).trans leads) ?_ ?_ ?_
    · rw [walkLoop, if_pos valid.1, valid.2]
    · rw [top]
      rfl
    · rw [← top, PagetableViews.write_same]
  | none =>
    have top : (tree s.words root).pte (index 2 va) = none :=
      (congrArg (Option.map (mid s.words)) leads :)
    have invalid := next_none leads
    have bound : ¬ MAXVA ≤ va := Nat.not_le_of_lt small
    have bound' : ¬ Pagetables.MAXVA ≤ va := bound
    change (tree s.words root).pte (Pagetables.PX 2 va) = none at top
    cases alloc with
    | false =>
      refine ⟨none, s, m, ?_, holds, ?_⟩
      · simp only [walk, if_neg bound, walkLoop, if_neg invalid, Bool.false_eq_true,
          not_false_eq_true, if_true]
      · simp only [Pagetables.walk, if_neg bound', top, Pagetables.descend, Bool.false_eq_true,
          if_false]
        rfl
    | true =>
      rcases taken : kalloc s with ⟨_ | page, s₁⟩
      · obtain ⟨m₁, same, holds₁⟩ := kalloc_holds holds taken
        obtain rfl := kalloc_none taken
        refine ⟨none, s₁, m₁, ?_, holds₁, ?_⟩
        · simp only [walk, if_neg bound, walkLoop, if_neg invalid, not_true_eq_false, if_false,
            taken]
        · simp only [Pagetables.walk, if_neg bound', top, Pagetables.descend, if_true, same]
          rfl
      · obtain ⟨m₁, same, holds₁⟩ := kalloc_holds holds taken
        obtain ⟨grown, empty⟩ := grow_root (i := index 2 va) wf taken
        have start : follow next s.words root [] = some root := rfl
        obtain ⟨wf₁, above, -⟩ := grow_spec wf (by decide) start leads taken
        refine follows_below small wf₁ ⟨holds₁.freelist, holds₁.kernelEnd, holds₁.fails⟩ above
          ?_ ?_ ?_
        · rw [walkLoop, if_neg invalid]
          simp only [not_true_eq_false, if_false, taken]
        · rw [empty]
          change Pagetables.descend true ((tree s.words root).pte (Pagetables.PX 2 va)) m = _
          simp only [top, Pagetables.descend, if_true, same]
        · rw [empty, grown]

/-- Every mapping has permissions as its flags and no others. -/
def Plain (s : Ram) (root : Nat) : Prop :=
  ∀ va < MAXVA, ∀ pa flags, PackedMaps.translate s root va = some (pa, flags) →
    ∃ perm, flags = bits perm ||| PTE_V

/-- The table in memory is the tree, and the free pages are those of the memory beside it. -/
structure Shows (s : Ram) (root : Nat) (t : Pagetable) (m : Memory) : Prop where
  wellFormed : WellFormed s root
  plain : Plain s root
  table : t = tree s.words root
  memory : Holds m s

/-- A new table, before anything is mapped. -/
theorem empty_shows (aligned : root % PGSIZE = 0) (zero : ∀ k, s.words root k = 0)
    (taken : root ∉ s.freelist) (once : s.freelist.Nodup)
    (pages : ∀ page ∈ s.freelist, page % PGSIZE = 0 ∧ page < PHYSTOP) (holds : Holds m s) :
    Shows s root (.empty root) m := by
  refine ⟨.of_empty aligned zero taken once pages, fun va small pa flags found => ?_, ?_, holds⟩
  · have stops : follow next s.words root (path va) = none := by
      rw [path, follow, zero, next_zero]
      rfl
    rw [PackedMaps.translate, lookup, entry, stops] at found
    cases found
  · exact (node_empty (by rw [next_zero]; rfl) zero).symm

/-- The panic of `Pagetables` that a panic stands for. -/
def panicOf : Panic → Option Pagetables.Panic
  | .kfree => some .kfree
  | .walk => some .walk
  | .mappagesSize => some .mappagesSize
  | .mappagesRemap => some .mappagesRemap
  | .uvmunmapNotAligned => some .uvmunmapNotAligned
  | .uvmunmapWalk => some .uvmunmapWalk
  | .uvmunmapNotMapped => some .uvmunmapNotMapped
  | .uvmunmapNotALeaf => some .uvmunmapNotALeaf
  | .fuel => none

theorem walk_refines {alloc : Bool} (shown : Shows s root t m) :
    Agrees panicOf
      (fun r r' => Shows r.2 root r'.2.1 r'.2.2 ∧
        r'.1 = r.1.map fun at_ => leaf (r.2.words at_.1 at_.2))
      (walk root va alloc s) (Pagetables.walk t va alloc m) := by
  by_cases small : va < MAXVA
  · have follows : Follows s m root va alloc :=
      walk_follows shown.wellFormed shown.memory small
    obtain ⟨r, s', m', walked, holds', same⟩ := follows
    obtain ⟨-, wf', kept, -⟩ := walk_spec shown.wellFormed walked
    rw [walked, shown.table, same]
    refine .ok ⟨⟨wf', fun va' small' pa flags found => ?_, rfl, holds'⟩, rfl⟩
    rw [kept] at found
    exact shown.plain va' small' pa flags found
  · have bound : MAXVA ≤ va := Nat.le_of_not_lt small
    have bound' : Pagetables.MAXVA ≤ va := bound
    rw [walk, if_pos bound, Pagetables.walk, if_pos bound']
    exact .error rfl

/-- The entry that `walk` led to is written. -/
theorem Shows.write (shown : Shows s root t m) (small : va < MAXVA)
    (there : follow next s.words root (path va) = some q)
    (fine : ∀ pa flags, maps e = some (pa, flags) → ∃ perm, flags = bits perm ||| PTE_V) :
    Shows (s.write q (index 0 va) e) root (Pagetables.store t va (leaf e)) m := by
  refine ⟨shown.wellFormed.write rfl there, fun va' small' pa flags found => ?_, ?_,
    shown.memory.freelist, shown.memory.kernelEnd, shown.memory.fails⟩
  · rw [translate_write shown.wellFormed small there small'] at found
    split at found
    · exact fine pa flags found
    · exact shown.plain va' small' pa flags found
  · rw [shown.table, ← tree_write shown.wellFormed.distinct there]
    rfl

theorem leaf_valid (valid : e &&& PTE_V ≠ 0) :
    leaf e = some ⟨PTE2PA e, perms (PTE_FLAGS e)⟩ := by
  rw [leaf, maps, if_pos valid]
  rfl

theorem leaf_invalid (invalid : ¬ e &&& PTE_V ≠ 0) : leaf e = none := by
  rw [leaf, maps, if_neg invalid]
  rfl

/-- The entry that `walk` led to is cleared. -/
theorem Shows.clear (shown : Shows s root t m) (small : va < MAXVA)
    (there : follow next s.words root (path va) = some q) :
    Shows (s.write q (index 0 va) 0) root (Pagetables.store t va none) m :=
  shown.write small there fun _ _ found => absurd found.symm (Option.some_ne_none _)

/-- What `mappages` writes is the mapping that it makes in the tree. -/
theorem leaf_or {pa : Nat} {perm : Perm} (aligned : pa % PGSIZE = 0) (fits : pa < 2 ^ 64) :
    leaf (PA2PTE pa ||| bits perm ||| PTE_V) = some ⟨pa, perm⟩ := by
  rw [leaf, maps_or pa _ (bits_fits perm), Option.map_some, perms_bits, Nat.mod_eq_of_lt fits,
    PGROUNDDOWN, aligned, Nat.sub_zero]

/-- The next address does not overflow, and there are rounds left for it. -/
theorem next_address {rounds : Nat} (small : v * PGSIZE < MAXVA)
    (enough : 2 ^ 26 < v + (rounds + 1)) :
    (v + 1) * PGSIZE % 2 ^ 64 = (v + 1) * PGSIZE ∧ 0 < rounds ∧ 2 ^ 26 < v + 1 + rounds := by
  simp only [MAXVA, PGSIZE] at small ⊢
  omega

theorem next_before {last : Nat} (aligned : last % PGSIZE = 0) (le : v * PGSIZE ≤ last)
    (ne : v * PGSIZE ≠ last) : (v + 1) * PGSIZE ≤ last ∧
      (last - v * PGSIZE) / PGSIZE = (last - (v + 1) * PGSIZE) / PGSIZE + 1 := by
  simp only [PGSIZE] at aligned le ne ⊢
  omega

theorem mapLoop_refines {last pa rounds : Nat} {perm : Perm} (shown : Shows s root t m)
    (aligned : last % PGSIZE = 0) (le : v * PGSIZE ≤ last) (page_aligned : pa % PGSIZE = 0)
    (fits : pa + MAXVA < 2 ^ 64 + v * PGSIZE) (some_ : 0 < rounds)
    (enough : 2 ^ 26 < v + rounds) :
    Agrees panicOf
      (fun r r' => Shows r.2 root r'.2.1 r'.2.2 ∧ r.1 = if r'.1 then 0 else -1)
      (mapLoop root last (bits perm) rounds (v * PGSIZE) pa s)
      (Pagetables.mapLoop perm last ((last - v * PGSIZE) / PGSIZE + 1) (v * PGSIZE) pa t m) := by
  induction rounds generalizing v pa s t m with
  | zero => exact absurd some_ (Nat.lt_irrefl 0)
  | succ rounds ih =>
    rw [mapLoop, Pagetables.mapLoop]
    refine (walk_refines shown).bind fun r r' walked related => ?_
    obtain ⟨found, s₁⟩ := r
    obtain ⟨found', t₁, m₁⟩ := r'
    obtain ⟨shown₁, same⟩ := related
    obtain ⟨small, -, -, -, -, ends⟩ := walk_spec shown.wellFormed walked
    cases found with
    | none =>
      cases same
      exact .ok ⟨shown₁, rfl⟩
    | some at_ =>
      obtain ⟨q, k⟩ := at_
      obtain ⟨rfl, there, -⟩ := ends q k rfl
      simp only [Option.map_some] at same
      by_cases valid : s₁.words q (index 0 (v * PGSIZE)) &&& PTE_V ≠ 0
      · rw [leaf_valid valid] at same
        cases same
        simp only [if_pos valid]
        exact .error rfl
      · rw [leaf_invalid valid] at same
        cases same
        simp only [if_neg valid]
        have low_ : pa + PGSIZE < 2 ^ 64 := by
          simp only [MAXVA, PGSIZE] at small fits ⊢
          omega
        have mapped : leaf (PA2PTE pa ||| bits perm ||| PTE_V) = some ⟨pa, perm⟩ :=
          leaf_or page_aligned (by omega)
        have shown₂ := shown₁.write (e := PA2PTE pa ||| bits perm ||| PTE_V) small there
          fun pa' flags maps_ => by
            rw [maps_or pa _ (bits_fits perm)] at maps_
            exact ⟨perm, (congrArg Prod.snd (Option.some.inj maps_)).symm⟩
        rw [mapped] at shown₂
        by_cases at_last : v * PGSIZE = last
        · simp only [if_pos at_last]
          exact .ok ⟨shown₂, rfl⟩
        · simp only [if_neg at_last]
          have size : Pagetables.PGSIZE = PGSIZE := rfl
          obtain ⟨before, left⟩ := next_before aligned le at_last
          have fits' : pa + PGSIZE + MAXVA < 2 ^ 64 + (v + 1) * PGSIZE := by
            rw [Nat.add_one_mul]
            omega
          obtain ⟨next_, some_, enough⟩ := next_address small enough
          rw [Nat.mod_eq_of_lt low_, size, left, ← Nat.add_one_mul, next_]
          exact ih shown₂ before ((Nat.add_mod_right _ _).trans page_aligned) fits' some_ enough

/-- `mappages` does in memory what it does on the tree. -/
theorem mappages_refines {size pa : Nat} {perm : Perm} (shown : Shows s root t m)
    (range : va + size ≤ 2 ^ 64) (aligned : pa % PGSIZE = 0) (fits : pa + MAXVA < 2 ^ 64) :
    Agrees panicOf
      (fun r r' => Shows r.2 root r'.2.1 r'.2.2 ∧ r.1 = if r'.1 then 0 else -1)
      (mappages root va size pa (bits perm) s) (Pagetables.mappages t va size pa perm m) := by
  unfold mappages Pagetables.mappages
  by_cases none_ : size = 0
  · rw [if_pos none_, if_pos none_]
    exact .error rfl
  · rw [if_neg none_, if_neg none_]
    have last : (va + size - 1) % 2 ^ 64 = va + size - 1 := Nat.mod_eq_of_lt (by omega)
    have size_ : Pagetables.PGSIZE = PGSIZE := rfl
    simp only [last, round_down, Pagetables.PGROUNDDOWN, size_]
    refine mapLoop_refines shown (Nat.mul_mod_left _ _) (Nat.mul_le_mul_right _
      (Nat.div_le_div_right (by omega))) aligned (by omega) (Nat.succ_pos _) (rounds_enough _)

/-- The page is freed in both memories. -/
theorem kfree_refines {pa : Nat} (shown : Shows s root t m)
    (unused : Unused next s.words root 2 pa) (once : pa ∉ s.freelist) :
    Agrees panicOf (fun s' m' => Shows s' root t m') (kfree pa s) (Pagetables.kfree pa m) := by
  by_cases bad : pa % PGSIZE ≠ 0 ∨ pa < s.kernelEnd ∨ PHYSTOP ≤ pa
  · have bad' : pa % Pagetables.PGSIZE ≠ 0 ∨ pa < m.kernelEnd ∨ Pagetables.PHYSTOP ≤ pa := by
      rw [shown.memory.kernelEnd]
      exact bad
    rw [kfree, if_pos bad, Pagetables.kfree, if_pos bad']
    exact .error rfl
  · have bad' : ¬ (pa % Pagetables.PGSIZE ≠ 0 ∨ pa < m.kernelEnd ∨ Pagetables.PHYSTOP ≤ pa) := by
      rw [shown.memory.kernelEnd]
      exact bad
    have freed : kfree pa s = .ok _ := if_neg bad
    obtain ⟨wf, -, -, kept⟩ := kfree_spec shown.wellFormed unused once freed
    rw [freed, Pagetables.kfree, if_neg bad']
    refine .ok ⟨wf, fun va small pa' flags found => ?_, ?_, ?_, shown.memory.kernelEnd,
      shown.memory.fails⟩
    · rw [kept] at found
      exact shown.plain va small pa' flags found
    · rw [shown.table]
      exact (tree_update unused).symm
    · exact congrArg (pa :: ·) shown.memory.freelist

/-- The page of `v` is freed and its entry cleared. -/
theorem free_refines {stop pa : Nat} {flags : Pte} (shown : Shows s root t m)
    (owns : Frees s root v stop) (small : v * PGSIZE < MAXVA) (more : v * PGSIZE < stop)
    (there : follow next s.words root (path (v * PGSIZE)) = some q)
    (mapped : PackedMaps.translate s root (v * PGSIZE) = some (pa, flags)) :
    Agrees panicOf
      (fun s' m' => Shows (s'.write q (index 0 (v * PGSIZE)) 0) root
          (Pagetables.store t (v * PGSIZE) none) m' ∧
        Frees (s'.write q (index 0 (v * PGSIZE)) 0) root (v + 1) stop)
      (kfree pa s) (Pagetables.kfree pa m) := by
  have page_ : v * PGSIZE / PGSIZE = v := Nat.mul_div_cancel v (by decide)
  obtain ⟨unused, once, -⟩ := owns (v * PGSIZE) small page_.ge (by rwa [page_]) pa flags mapped
  refine (kfree_refines shown unused once).mono fun s₁ m₁ freed shown₁ => ?_
  obtain ⟨-, keeps, -⟩ := free_page shown.wellFormed owns small more there mapped freed
  obtain ⟨-, -, words, -⟩ := kfree_spec shown.wellFormed unused once freed
  have there₁ : follow next s₁.words root (path (v * PGSIZE)) = some q := by
    rw [words]
    exact (follow_update unused (by rfl)).trans there
  exact ⟨shown₁.clear small there₁, keeps⟩

theorem unmapLoop_refines {n rounds : Nat} {doFree : Bool} (shown : Shows s root t m)
    (frees : doFree = true → Frees s root v ((v + n) * PGSIZE)) (some_ : 0 < rounds)
    (enough : 2 ^ 26 < v + rounds) :
    Agrees panicOf (fun s' r => Shows s' root r.1 r.2)
      (unmapLoop root ((v + n) * PGSIZE) doFree rounds (v * PGSIZE) s)
      (Pagetables.unmapLoop doFree n (v * PGSIZE) t m) := by
  induction rounds generalizing v n s t m with
  | zero => exact absurd some_ (Nat.lt_irrefl 0)
  | succ rounds ih =>
    cases n with
    | zero =>
      rw [unmapLoop, if_neg (by simp)]
      exact .ok shown
    | succ n =>
      have more : v * PGSIZE < (v + (n + 1)) * PGSIZE := by
        simp only [PGSIZE]
        omega
      rw [unmapLoop, if_pos more, Pagetables.unmapLoop]
      refine (walk_refines shown).bind fun r r' walked related => ?_
      obtain ⟨found, s₁⟩ := r
      obtain ⟨found', t₁, m₁⟩ := r'
      obtain ⟨shown₁, same⟩ := related
      obtain ⟨small, -, -, still, -, ends⟩ := walk_spec shown.wellFormed walked
      obtain rfl := still rfl
      cases found with
      | none =>
        cases same
        exact .error rfl
      | some at_ =>
        obtain ⟨q, k⟩ := at_
        obtain ⟨rfl, there, found⟩ := ends q k rfl
        simp only [Option.map_some] at same
        by_cases valid : s₁.words q (index 0 (v * PGSIZE)) &&& PTE_V = 0
        · rw [leaf_invalid (not_not.mpr valid)] at same
          cases same
          simp only [if_pos valid]
          exact .error rfl
        · rw [leaf_valid valid] at same
          cases same
          simp only [if_neg valid]
          have mapped := found.trans (if_pos valid)
          obtain ⟨perm, flags⟩ := shown.plain _ small _ _ mapped
          have size : Pagetables.PGSIZE = PGSIZE := rfl
          have stop : v + (n + 1) = v + 1 + n := by omega
          rw [stop] at frees ⊢
          rw [flags, perms_bits]
          obtain ⟨next_, some_, enough⟩ := next_address small enough
          simp only [size, ← Nat.add_one_mul, bits_eq_V, next_]
          by_cases bare_ : perm = ⟨false, false, false, false⟩
          · rw [if_pos bare_, if_pos bare_]
            exact .error rfl
          · rw [if_neg bare_, if_neg bare_]
            cases doFree with
            | false =>
              exact ih (shown₁.clear small there) (fun never => absurd never Bool.false_ne_true) some_ enough
            | true =>
              refine (free_refines shown₁ (frees rfl) small (stop ▸ more) there mapped).bind ?_
              rintro s₂ m₂ - ⟨shown₂, owns⟩
              exact ih shown₂ (fun _ => owns) some_ enough

/-- `uvmunmap` does in memory what it does on the tree. -/
theorem uvmunmap_refines {npages : Nat} {doFree : Bool} (shown : Shows s root t m)
    (range : va + npages * PGSIZE < 2 ^ 64)
    (frees : doFree = true → Frees s root (va / PGSIZE) (va + npages * PGSIZE)) :
    Agrees panicOf (fun s' r => Shows s' root r.1 r.2) (uvmunmap root va npages doFree s)
      (Pagetables.uvmunmap t va npages doFree m) := by
  unfold uvmunmap Pagetables.uvmunmap
  have size : Pagetables.PGSIZE = PGSIZE := rfl
  rw [size]
  by_cases odd : va % PGSIZE ≠ 0
  · rw [if_pos odd, if_pos odd]
    exact .error rfl
  · rw [if_neg odd, if_neg odd, Nat.mod_eq_of_lt range]
    have start : va / PGSIZE * PGSIZE = va :=
      Nat.div_mul_cancel (Nat.dvd_of_mod_eq_zero (not_not.mp odd))
    have stop : (va / PGSIZE + npages) * PGSIZE = va + npages * PGSIZE := by
      rw [Nat.add_mul, start]
    have frees' (free : doFree = true) :
        Frees s root (va / PGSIZE) ((va / PGSIZE + npages) * PGSIZE) := by
      rw [stop]
      exact frees free
    have loops := unmapLoop_refines (v := va / PGSIZE) (n := npages) shown frees'
      (Nat.succ_pos _) (rounds_enough _)
    rw [start, stop] at loops
    exact loops

/-- The pages as the copies to and from user memory read them. -/
def entries (W : Words) : Tables := fun page i => W page (Fin.ofNat 512 i)

theorem walkLoop_reads (s : Ram) (va p level : Nat) : ∃ r, walkLoop va false level p s = (r, s) ∧
    r.map (fun at_ => s.words at_.1 at_.2) = walkFrom (entries s.words) va level p := by
  have here (level p : Nat) :
      entries s.words p (PX level va) = s.words p (index level va) :=
    congrArg (s.words p) (Fin.ext (Nat.mod_eq_of_lt (PX_lt level va)))
  induction level generalizing p with
  | zero => exact ⟨_, rfl, congrArg some (here 0 p).symm⟩
  | succ level ih =>
    simp only [walkLoop, walkFrom, here]
    split
    · exact ih _
    · exact ⟨none, rfl, rfl⟩

/-- `walk` without `alloc` is the one that those copies call. -/
theorem walk_reads (va : Mappable) : ∃ r, walk root va.val false s = .ok (r, s) ∧
    r.map (fun at_ => s.words at_.1 at_.2) = UserCopies.walk (entries s.words) root va := by
  obtain ⟨r, walked, same⟩ := walkLoop_reads s va.val root 2
  exact ⟨r, (if_neg (Nat.not_le_of_lt va.property)).trans (congrArg Except.ok walked), same⟩

end PackedTrees
