import Mathlib.Data.List.Induction
import Mathlib.Order.Nat
import Mathlib.Logic.Function.Basic

/-!
# Trees of tables

Tables lie at addresses, and an entry may lead to the address of another table. A
path of indices leads from the root to a table. Where no two short paths meet, an
entry is on one path only, so writing it or hanging a new table there changes
nothing else.
-/

namespace RadixTables

open Function

variable {P I E : Type} {next : E → Option P} {tables : P → I → E} {root q page : P}
  {is js : List I} {i j : I} {e : E} {d : Nat}

/-- The table that a path leads to. -/
def follow (next : E → Option P) (tables : P → I → E) : P → List I → Option P
  | p, [] => some p
  | p, i :: is => (next (tables p i)).bind fun q => follow next tables q is

/-- The entry at the end of a path. -/
def entry (next : E → Option P) (tables : P → I → E) (root : P) (is : List I) (i : I) : Option E :=
  (follow next tables root is).map fun q => tables q i

/-- No two paths of at most `d` indices lead to the same table. -/
def Distinct (next : E → Option P) (tables : P → I → E) (root : P) (d : Nat) : Prop :=
  ∀ is js q, is.length ≤ d → js.length ≤ d → follow next tables root is = some q →
    follow next tables root js = some q → is = js

/-- No path of at most `d` indices leads to the page. -/
def Unused (next : E → Option P) (tables : P → I → E) (root : P) (d : Nat) (page : P) : Prop :=
  ∀ is, is.length ≤ d → follow next tables root is ≠ some page

theorem follow_append (p : P) (is js : List I) :
    follow next tables p (is ++ js) =
      (follow next tables p is).bind fun q => follow next tables q js := by
  induction is generalizing p with
  | nil => rfl
  | cons k is ih =>
    rw [List.cons_append, follow, follow, Option.bind_assoc]
    exact congrArg _ (funext ih)

theorem follow_concat (p : P) (is : List I) (i : I) :
    follow next tables p (is ++ [i]) =
      (follow next tables p is).bind fun q => next (tables q i) := by
  simp only [follow_append, follow, Option.bind_fun_some]

theorem follow_singleton (p : P) (i : I) : follow next tables p [i] = next (tables p i) :=
  Option.bind_fun_some _

variable [DecidableEq P]

theorem follow_update {contents : I → E} (unused : Unused next tables root d page)
    (short : js.length ≤ d) :
    follow next (update tables page contents) root js = follow next tables root js := by
  induction js using List.reverseRecOn with
  | nil => rfl
  | append_singleton js j ih =>
    rw [List.length_append, List.length_singleton] at short
    rw [follow_concat, follow_concat, ih (by omega)]
    cases here : follow next tables root js with
    | none => rfl
    | some p =>
      have other : p ≠ page := by
        rintro rfl
        exact unused js (by omega) here
      rw [Option.bind_some, Option.bind_some, update_of_ne other]

theorem entry_update {contents : I → E} (unused : Unused next tables root d page)
    (short : js.length ≤ d) :
    entry next (update tables page contents) root js j = entry next tables root js j := by
  rw [entry, entry, follow_update unused short]
  cases here : follow next tables root js with
  | none => rfl
  | some p =>
    have other : p ≠ page := by
      rintro rfl
      exact unused js short here
    rw [Option.map_some, Option.map_some, update_of_ne other]

theorem Distinct.update {contents : I → E} (distinct : Distinct next tables root d)
    (unused : Unused next tables root d page) :
    Distinct next (update tables page contents) root d := by
  intro js ks p js_short ks_short first second
  rw [follow_update unused js_short] at first
  rw [follow_update unused ks_short] at second
  exact distinct js ks p js_short ks_short first second

theorem Unused.update {contents : I → E} {other : P} (unused : Unused next tables root d other)
    (page_unused : Unused next tables root d page) :
    Unused next (Function.update tables page contents) root d other := by
  intro js short
  rw [follow_update page_unused short]
  exact unused js short

variable [DecidableEq I]

def write (tables : P → I → E) (q : P) (i : I) (e : E) : P → I → E :=
  update tables q (update (tables q) i e)

theorem write_self : write tables q i e q = update (tables q) i e := update_self ..

theorem write_other {p : P} (other : p ≠ q) : write tables q i e p = tables p :=
  update_of_ne other _ _

theorem follow_write (distinct : Distinct next tables root d) (len : is.length = d)
    (there : follow next tables root is = some q) (short : js.length ≤ d) :
    follow next (write tables q i e) root js = follow next tables root js := by
  induction js using List.reverseRecOn with
  | nil => rfl
  | append_singleton js j ih =>
    rw [List.length_append, List.length_singleton] at short
    rw [follow_concat, follow_concat, ih (by omega)]
    cases here : follow next tables root js with
    | none => rfl
    | some p =>
      have other : p ≠ q := by
        rintro rfl
        have same := distinct is js p len.le (by omega) there here
        rw [same] at len
        omega
      rw [Option.bind_some, Option.bind_some, write_other other]

theorem entry_write (distinct : Distinct next tables root d) (len : is.length = d)
    (there : follow next tables root is = some q) (short : js.length ≤ d) :
    entry next (write tables q i e) root js j =
      if js = is ∧ j = i then some e else entry next tables root js j := by
  rw [entry, entry, follow_write distinct len there short]
  cases here : follow next tables root js with
  | none =>
    rw [if_neg]
    · rfl
    · rintro ⟨rfl, -⟩
      rw [here] at there
      cases there
  | some p =>
    rw [Option.map_some, Option.map_some]
    by_cases same : p = q
    · subst same
      obtain rfl := distinct is js p len.le short there here
      rw [write_self]
      by_cases at_ : j = i
      · subst at_
        rw [update_self, if_pos ⟨rfl, rfl⟩]
      · rw [update_of_ne at_, if_neg fun h => at_ h.2]
    · rw [write_other same, if_neg]
      rintro ⟨rfl, -⟩
      exact same (Option.some.inj (here.symm.trans there))

theorem Distinct.write (distinct : Distinct next tables root d) (len : is.length = d)
    (there : follow next tables root is = some q) :
    Distinct next (write tables q i e) root d := by
  intro js ks p js_short ks_short first second
  rw [follow_write distinct len there js_short] at first
  rw [follow_write distinct len there ks_short] at second
  exact distinct js ks p js_short ks_short first second

theorem Unused.write (unused : Unused next tables root d page)
    (distinct : Distinct next tables root d) (len : is.length = d)
    (there : follow next tables root is = some q) :
    Unused next (RadixTables.write tables q i e) root d page := by
  intro js short
  rw [follow_write distinct len there short]
  exact unused js short

/-- An empty table is hung at an entry that led nowhere. -/
theorem follow_grow (distinct : Distinct next tables root d) (len : is.length < d)
    (there : follow next tables root is = some q) (none_ : next (tables q i) = none)
    (empty : ∀ j, next (tables page j) = none) (unused : Unused next tables root d page)
    (leads : next e = some page) (short : js.length ≤ d) :
    follow next (write tables q i e) root js =
      if js = is ++ [i] then some page else follow next tables root js := by
  have page_ne : page ≠ q := by
    rintro rfl
    exact unused is len.le there
  induction js using List.reverseRecOn with
  | nil =>
    rw [if_neg (by simp)]
    rfl
  | append_singleton js j ih =>
    rw [List.length_append, List.length_singleton] at short
    rw [follow_concat, follow_concat, ih (by omega)]
    by_cases below : js = is ++ [i]
    · have before : follow next tables root js = none := by
        rw [below, follow_concat, there]
        exact none_
      have longer : js ++ [j] ≠ is ++ [i] := by
        intro same
        have lengths := congrArg List.length same
        rw [below] at lengths
        simp at lengths
      rw [if_pos below, if_neg longer, before, Option.bind_some, write_other page_ne]
      exact empty j
    · rw [if_neg below]
      cases here : follow next tables root js with
      | none =>
        rw [if_neg]
        · rfl
        · intro same
          obtain ⟨rfl, -⟩ := List.append_inj' same rfl
          rw [here] at there
          cases there
      | some p =>
        rw [Option.bind_some, Option.bind_some]
        by_cases same : p = q
        · subst same
          obtain rfl := distinct is js p len.le (by omega) there here
          rw [write_self]
          by_cases at_ : j = i
          · subst at_
            rw [update_self, if_pos rfl, leads]
          · rw [update_of_ne at_, if_neg]
            intro same
            exact at_ (List.singleton_inj.mp (List.append_cancel_left same))
        · rw [write_other same, if_neg]
          intro longer
          obtain ⟨rfl, -⟩ := List.append_inj' longer rfl
          exact same (Option.some.inj (here.symm.trans there))

theorem Distinct.grow (distinct : Distinct next tables root d) (len : is.length < d)
    (there : follow next tables root is = some q) (none_ : next (tables q i) = none)
    (empty : ∀ j, next (tables page j) = none) (unused : Unused next tables root d page)
    (leads : next e = some page) : Distinct next (RadixTables.write tables q i e) root d := by
  intro js ks p js_short ks_short first second
  rw [follow_grow distinct len there none_ empty unused leads js_short] at first
  rw [follow_grow distinct len there none_ empty unused leads ks_short] at second
  split at first <;> split at second
  next one two => exact one.trans two.symm
  next =>
    obtain rfl := Option.some.inj first
    exact (unused ks ks_short second).elim
  next =>
    obtain rfl := Option.some.inj second
    exact (unused js js_short first).elim
  next => exact distinct js ks p js_short ks_short first second

theorem Unused.grow {other : P} (unused : Unused next tables root d other)
    (distinct : Distinct next tables root d) (len : is.length < d)
    (there : follow next tables root is = some q) (none_ : next (tables q i) = none)
    (empty : ∀ j, next (tables page j) = none) (page_unused : Unused next tables root d page)
    (leads : next e = some page) (ne : other ≠ page) :
    Unused next (RadixTables.write tables q i e) root d other := by
  intro js short
  rw [follow_grow distinct len there none_ empty page_unused leads short]
  split
  · exact fun same => ne (Option.some.inj same).symm
  · exact unused js short

/-- The entries of the new table are empty, the others are as before. -/
theorem entry_grow (distinct : Distinct next tables root d) (len : is.length < d)
    (there : follow next tables root is = some q) (none_ : next (tables q i) = none)
    (empty : ∀ j, next (tables page j) = none) (unused : Unused next tables root d page)
    (leads : next e = some page) (full : js.length = d) :
    entry next (write tables q i e) root js j =
      if js = is ++ [i] then some (tables page j) else entry next tables root js j := by
  rw [entry, entry, follow_grow distinct len there none_ empty unused leads full.le]
  have other {p : P} (ks : List I) (at_ : follow next tables root ks = some p)
      (long : ks.length = d) : p ≠ q := by
    rintro rfl
    have same := distinct is ks p len.le long.le there at_
    rw [same] at len
    omega
  split
  next =>
    have page_ne : page ≠ q := by
      rintro rfl
      exact unused is len.le there
    rw [Option.map_some, write_other page_ne]
  next =>
    cases here : follow next tables root js with
    | none => rfl
    | some p => rw [Option.map_some, Option.map_some, write_other (other js here full)]

end RadixTables
