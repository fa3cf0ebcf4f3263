import Mathlib.Data.List.Nodup
import Mathlib.Logic.Function.Basic

/-!
# Rings of doubly linked nodes

A ring is given by its two link functions. `Lists r head l` says that following
`next` from `head` meets the nodes of `l` in order and then `head` again, and
that every `prev` link undoes the `next` link to its node. Taking a node out of
a ring and putting one in after the head are proved for the sequences of link
assignments that do it in place, and so is the search from the head in either
direction.
-/

namespace Rings
open Function

universe u

structure Links (N : Type u) where
  next : N → N
  prev : N → N

variable {N : Type u} {r r' : Links N} {a b c head : N} {l m : List N}

/-- From `a` over the nodes of a list to `c`. -/
def Linked (r : Links N) : N → List N → N → Prop
  | a, [], c => r.next a = c ∧ r.prev c = a
  | a, b :: l, c => (r.next a = b ∧ r.prev b = a) ∧ Linked r b l c

structure Lists (r : Links N) (head : N) (l : List N) : Prop where
  nodup : (head :: l).Nodup
  linked : Linked r head l head

/-- The same ring, walked the other way. -/
def Links.flip (r : Links N) : Links N := ⟨r.prev, r.next⟩

theorem linked_append :
    Linked r a (l ++ b :: m) c ↔ Linked r a l b ∧ Linked r b m c := by
  induction l generalizing a with
  | nil => rfl
  | cons x l ih => simp only [List.cons_append, Linked, ih, and_assoc]

/-- A path depends on the links between its nodes only. -/
theorem Linked.frame (h : Linked r a l c) (next : ∀ x ∈ a :: l, r'.next x = r.next x)
    (prev : ∀ x ∈ l ++ [c], r'.prev x = r.prev x) : Linked r' a l c := by
  induction l generalizing a with
  | nil =>
    exact ⟨(next a List.mem_cons_self).trans h.1, (prev c List.mem_cons_self).trans h.2⟩
  | cons b l ih =>
    obtain ⟨⟨there, back⟩, rest⟩ := h
    have entry : r'.next a = b ∧ r'.prev b = a :=
      ⟨(next a List.mem_cons_self).trans there, (prev b List.mem_cons_self).trans back⟩
    refine ⟨entry, ih rest (fun x hx => next x (List.mem_cons_of_mem a hx)) ?_⟩
    exact fun x hx => prev x (List.mem_cons_of_mem b hx)

theorem Linked.flip (h : Linked r a l c) : Linked r.flip c l.reverse a := by
  induction l generalizing a with
  | nil => exact ⟨h.2, h.1⟩
  | cons b l ih =>
    obtain ⟨⟨there, back⟩, rest⟩ := h
    rw [List.reverse_cons, linked_append]
    exact ⟨ih rest, back, there⟩

theorem Linked.next_mem (h : Linked r a l c) : r.next a ∈ l ++ [c] := by
  cases l with
  | nil => simp [h.1]
  | cons b l => simp [h.1.1]

theorem Linked.prev_mem (h : Linked r a l c) : r.prev c ∈ a :: l := by
  have back : r.prev c ∈ l.reverse ++ [a] := h.flip.next_mem
  simpa [or_comm] using back

theorem Lists.flip (h : Lists r head l) : Lists r.flip head l.reverse := by
  refine ⟨?_, h.linked.flip⟩
  simpa using h.nodup

theorem Lists.head_notMem (h : Lists r head l) : head ∉ l := (List.nodup_cons.mp h.nodup).1

/-- A node of the list, the head and the other nodes. -/
theorem Lists.apart (h : Lists r head (l ++ b :: m)) : (b :: head :: (l ++ m)).Nodup := by
  rw [← List.cons_append]
  exact List.nodup_middle.mp h.nodup

/-- A node is not met again on the way from it to the head. -/
theorem once (nodup : (head :: (l ++ b :: m)).Nodup) : b ∉ m ++ [head] := by
  rw [← List.cons_append, List.nodup_append] at nodup
  obtain ⟨-, rear, disjoint⟩ := nodup
  simp only [List.mem_append, List.mem_singleton, not_or]
  exact ⟨(List.nodup_cons.mp rear).1,
    (disjoint head List.mem_cons_self b List.mem_cons_self).symm⟩

/-- The only node of an empty ring is its head. -/
theorem lists_nil : Lists r head [] ↔ r.next head = head ∧ r.prev head = head :=
  ⟨fun h => h.linked, fun h => ⟨by simp, h⟩⟩

section Searching

variable {B : Type u} {w : Links (Option B)} {k : List B} {test : B → Bool} {fuel : Nat}

/-- The loop from a node on to one that passes the test, or to the head, which
is `none`. Without a result the fuel did not last. -/
def search (follow : Option B → Option B) (test : B → Bool) : Nat → Option B → Option (Option B)
  | 0, _ => none
  | _ + 1, none => some none
  | fuel + 1, some b => if test b then some (some b) else search follow test fuel (follow (some b))

theorem search_linked {start : Option B} (h : Linked w start (k.map some) none)
    (enough : k.length < fuel) : search w.next test fuel (w.next start) = some (k.find? test) := by
  induction k generalizing start fuel with
  | nil =>
    obtain ⟨fuel, rfl⟩ := Nat.exists_eq_succ_of_ne_zero (Nat.ne_of_gt enough)
    simp [search, h.1]
  | cons b k ih =>
    obtain ⟨fuel, rfl⟩ := Nat.exists_eq_succ_of_ne_zero (Nat.ne_of_gt (Nat.zero_lt_of_lt enough))
    obtain ⟨⟨there, -⟩, rest⟩ := h
    have further := ih rest (Nat.lt_of_succ_lt_succ enough)
    cases found : test b with
    | true => simp [search, there, found]
    | false => simp [search, there, found, further]

/-- From the node after the head, the first node of the list that passes. -/
theorem Lists.search_next (h : Lists w none (k.map some)) (enough : k.length < fuel) :
    search w.next test fuel (w.next none) = some (k.find? test) :=
  search_linked h.linked enough

/-- From the node before the head, the last node of the list that passes. -/
theorem Lists.search_prev (h : Lists w none (k.map some)) (enough : k.length < fuel) :
    search w.prev test fuel (w.prev none) = some (k.reverse.find? test) := by
  have back : Lists w.flip none (k.reverse.map some) := by
    rw [List.map_reverse]
    exact h.flip
  exact back.search_next (by simpa using enough)

end Searching

variable [DecidableEq N]

/-- `b->next->prev = b->prev; b->prev->next = b->next`. -/
def Links.detach (r : Links N) (b : N) : Links N :=
  let r := { r with prev := update r.prev (r.next b) (r.prev b) }
  { r with next := update r.next (r.prev b) (r.next b) }

/-- `b->next = head->next; b->prev = head; head->next->prev = b; head->next = b`. -/
def Links.push (r : Links N) (head b : N) : Links N :=
  let r := { r with next := update r.next b (r.next head) }
  let r := { r with prev := update r.prev b head }
  let r := { r with prev := update r.prev (r.next head) b }
  { r with next := update r.next head b }

/-- Where a path ends is changed in two links. -/
theorem Linked.retarget (h : Linked r a l b) (nodup : (a :: l).Nodup) (apart : c ∉ l) :
    Linked ⟨update r.next (r.prev b) c, update r.prev c (r.prev b)⟩ a l c := by
  rcases l.eq_nil_or_concat' with rfl | ⟨before, z, rfl⟩
  · simp [Linked, h.2]
  · obtain ⟨inner, -, back⟩ := linked_append.mp h
    rw [linked_append, back]
    have last : z ∉ a :: before := by
      rw [← List.cons_append] at nodup
      exact fun mem => List.disjoint_of_nodup_append nodup mem List.mem_cons_self
    refine ⟨inner.frame (fun x hx => ?_) fun x hx => ?_, by simp, by simp⟩
    · exact update_of_ne (ne_of_mem_of_not_mem hx last) _ _
    · exact update_of_ne (ne_of_mem_of_not_mem hx apart) _ _

/-- A node is taken out. -/
theorem Lists.detach (h : Lists r head (l ++ b :: m)) : Lists (r.detach b) head (l ++ m) := by
  obtain ⟨into, onward⟩ := linked_append.mp h.linked
  obtain ⟨gone, nodup⟩ := List.nodup_cons.mp h.apart
  have front : (head :: l).Nodup := nodup.sublist (by simp)
  have other : r.next b ≠ b := by
    refine ne_of_mem_of_not_mem onward.next_mem fun mem => gone ?_
    simp only [List.mem_append, List.mem_cons, List.not_mem_nil, or_false] at mem ⊢
    exact mem.elim (fun inside => Or.inr (Or.inr inside)) Or.inl
  have links : r.detach b =
      ⟨update r.next (r.prev b) (r.next b), update r.prev (r.next b) (r.prev b)⟩ := by
    simp [Links.detach, other.symm]
  refine ⟨nodup, ?_⟩
  rw [links]
  cases m with
  | nil =>
    rw [List.append_nil, onward.1]
    exact into.retarget front (List.nodup_cons.mp front).1
  | cons n m =>
    obtain ⟨⟨there, -⟩, rest⟩ := onward
    have later : n ∉ m ++ [head] := once nodup
    rw [← List.cons_append, List.nodup_append] at nodup
    obtain ⟨-, -, disjoint⟩ := nodup
    have early : n ∉ l := fun mem =>
      disjoint n (List.mem_cons_of_mem head mem) n List.mem_cons_self rfl
    rw [there, linked_append]
    refine ⟨into.retarget front early, rest.frame (fun x hx => ?_) fun x hx => ?_⟩
    · exact update_of_ne (disjoint _ into.prev_mem x hx).symm _ _
    · exact update_of_ne (ne_of_mem_of_not_mem hx later) _ _

/-- A node outside is put in after the head. -/
theorem Lists.push (h : Lists r head l) (outside : b ∉ head :: l) :
    Lists (r.push head b) head (b :: l) := by
  obtain ⟨other, fresh⟩ := List.ne_and_not_mem_of_not_mem_cons outside
  have nodup : (head :: b :: l).Nodup := by
    refine List.nodup_cons.mpr ⟨?_, List.nodup_cons.mpr ⟨fresh, h.nodup.of_cons⟩⟩
    exact List.not_mem_cons_of_ne_of_not_mem other.symm h.head_notMem
  have links : r.push head b = ⟨update (update r.next b (r.next head)) head b,
      update (update r.prev b head) (r.next head) b⟩ := by
    simp [Links.push, other.symm]
  refine ⟨nodup, ?_⟩
  rw [links]
  cases l with
  | nil =>
    obtain ⟨there, -⟩ := h.linked
    simp [Linked, there, other]
  | cons n l =>
    obtain ⟨⟨there, -⟩, rest⟩ := h.linked
    obtain ⟨away, -⟩ := List.ne_and_not_mem_of_not_mem_cons fresh
    rw [there]
    have later : n ∉ l ++ [head] := once (l := []) h.nodup
    have outside : b ∉ l ++ [head] := by
      simpa [other] using (List.ne_and_not_mem_of_not_mem_cons fresh).2
    refine ⟨by simp [away], by simp [other], rest.frame (fun x hx => ?_) fun x hx => ?_⟩
    · have notHead : x ≠ head := ne_of_mem_of_not_mem hx h.head_notMem
      have notNew : x ≠ b := ne_of_mem_of_not_mem hx fresh
      simp [notHead, notNew]
    · have notFirst : x ≠ n := ne_of_mem_of_not_mem hx later
      have notNew : x ≠ b := ne_of_mem_of_not_mem hx outside
      simp [notFirst, notNew]

/-- A node of the list goes to its front. -/
theorem Lists.toFront (h : Lists r head (l ++ b :: m)) :
    Lists ((r.detach b).push head b) head (b :: (l ++ m)) :=
  h.detach.push (List.nodup_cons.mp h.apart).1

/-- Putting nodes into a ring one after the other. -/
theorem Lists.pushes (h : Lists r head l) (nodup : (m.reverse ++ head :: l).Nodup) :
    Lists (m.foldl (fun r b => r.push head b) r) head (m.reverse ++ l) := by
  induction m generalizing r l with
  | nil => exact h
  | cons b m ih =>
    rw [List.reverse_cons, List.append_assoc] at nodup ⊢
    have outside : b ∉ head :: l :=
      (List.nodup_cons.mp (nodup.sublist (List.sublist_append_right _ _))).1
    refine ih (h.push outside) (nodup.perm ?_)
    exact (List.Perm.swap head b l).append_left _

end Rings
