import Mathlib.Data.List.Basic
import Mathlib.Data.List.Nodup
import Mathlib.Logic.Function.Basic

/-!
# Segments of doubly linked lists

A segment is described by its two link functions, so it does not depend on how
nodes are stored. `Segment next prev before L after` says that the nodes of `L`
point at one another in order, that the first one points back to `before` and
that the last one points on to `after`. Splitting a segment at any place gives
two segments that share the seam; the edits of a linked list are proved there.
-/

namespace LinkedSegments

universe u

variable {A : Type u}

/-- The node entered first: the head of `L`, or what follows an empty segment. -/
def first (L : List A) (after : Option A) : Option A := L.head?.or after

/-- The node left last: the end of `L`, or what precedes an empty segment. -/
def last (before : Option A) (L : List A) : Option A := L.getLast?.or before

def Segment (next prev : A → Option A) : Option A → List A → Option A → Prop
  | _, [], _ => True
  | before, a :: L, after =>
    prev a = before ∧ next a = first L after ∧ Segment next prev (some a) L after

@[simp] theorem first_nil (after : Option A) : first [] after = after := rfl

@[simp] theorem first_cons (a : A) (L : List A) (after : Option A) :
    first (a :: L) after = some a := rfl

@[simp] theorem last_nil (before : Option A) : last before [] = before := rfl

theorem last_cons (before : Option A) (a : A) (L : List A) :
    last before (a :: L) = last (some a) L := by
  cases L with
  | nil => rfl
  | cons b L =>
    obtain ⟨c, hc⟩ : ∃ c, (b :: L).getLast? = some c :=
      ⟨_, List.getLast?_eq_some_getLast (List.cons_ne_nil b L)⟩
    simp [last, List.getLast?_cons_cons, hc]

@[simp] theorem last_concat (before : Option A) (L : List A) (a : A) :
    last before (L ++ [a]) = some a := by
  simp [last]

theorem first_append (L M : List A) (after : Option A) :
    first (L ++ M) after = first L (first M after) := by
  cases L <;> simp [first]

variable {next prev next' prev' : A → Option A}

/-- A segment is two segments and the seam between them. -/
theorem segment_append {before after : Option A} {L M : List A} :
    Segment next prev before (L ++ M) after ↔
      Segment next prev before L (first M after) ∧
      Segment next prev (last before L) M after := by
  induction L generalizing before with
  | nil => simp [Segment]
  | cons a L ih =>
    simp only [List.cons_append, Segment, first_append, ih, last_cons, and_assoc]

/-- A segment depends on the links of its own nodes only. -/
theorem Segment.frame {before after : Option A} {L : List A}
    (h : Segment next prev before L after)
    (hn : ∀ a ∈ L, next' a = next a) (hp : ∀ a ∈ L, prev' a = prev a) :
    Segment next' prev' before L after := by
  induction L generalizing before with
  | nil => trivial
  | cons a L ih =>
    obtain ⟨h1, h2, h3⟩ := h
    refine ⟨(hp a List.mem_cons_self).trans h1, (hn a List.mem_cons_self).trans h2, ?_⟩
    exact ih h3 (fun b hb => hn b (List.mem_cons_of_mem a hb))
      (fun b hb => hp b (List.mem_cons_of_mem a hb))

/-- Redirecting the last node moves the exit of a nonempty segment. -/
theorem Segment.redirect_exit [DecidableEq A] {before after target : Option A}
    {L : List A} {z : A} (h : Segment next prev before (L ++ [z]) after)
    (nodup : (L ++ [z]).Nodup) :
    Segment (Function.update next z target) prev before (L ++ [z]) target := by
  rw [segment_append] at h ⊢
  have hz : ∀ a ∈ L, a ≠ z := by
    intro a ha heq
    exact (List.disjoint_of_nodup_append nodup) ha (by simp [heq])
  refine ⟨h.1.frame (fun a ha => by simp [hz a ha]) (fun _ _ => rfl), ?_⟩
  exact ⟨h.2.1, by simp, trivial⟩

/-- Redirecting the first node moves the entry of a nonempty segment. -/
theorem Segment.redirect_entry [DecidableEq A] {before after source : Option A}
    {a : A} {L : List A} (h : Segment next prev before (a :: L) after)
    (nodup : (a :: L).Nodup) :
    Segment next (Function.update prev a source) source (a :: L) after := by
  have ha : ∀ b ∈ L, b ≠ a := by
    intro b hb heq
    exact (List.nodup_cons.mp nodup).1 (heq ▸ hb)
  refine ⟨by simp, h.2.1, h.2.2.frame (fun _ _ => rfl) fun b hb => ?_⟩
  simp [ha b hb]

/-- The link that leaves a node of a segment leads to what follows it. -/
theorem Segment.next_eq {before after : Option A} {L M : List A} {a : A}
    (h : Segment next prev before (L ++ a :: M) after) : next a = first M after :=
  (segment_append.mp h).2.2.1

theorem Segment.prev_eq {before after : Option A} {L M : List A} {a : A}
    (h : Segment next prev before (L ++ a :: M) after) : prev a = last before L :=
  (segment_append.mp h).2.1

/-- The first `fuel` nodes reached from a pointer by following `next`. -/
def follow (next : A → Option A) : Nat → Option A → List A
  | 0, _ => []
  | _ + 1, none => []
  | fuel + 1, some a => a :: follow next fuel (next a)

/-- Following a terminated segment for long enough reads off its nodes. -/
theorem Segment.follow_eq {before : Option A} {L : List A} {fuel : Nat}
    (h : Segment next prev before L none) (enough : L.length ≤ fuel) :
    follow next fuel L.head? = L := by
  induction L generalizing before fuel with
  | nil => cases fuel <;> rfl
  | cons a L ih =>
    cases fuel with
    | zero => simp at enough
    | succ fuel =>
      have hn : next a = L.head? := by simpa [first] using h.2.1
      simp only [List.head?_cons, follow, hn]
      rw [ih h.2.2 (by simpa using enough)]

/-- From `p` the links lead through the nodes of `L`, one after the other, and end. -/
def Path (link : A → Option A) : Option A → List A → Prop
  | p, [] => p = none
  | p, a :: L => p = some a ∧ Path link (link a) L

/-- A terminated segment is a path forwards. -/
theorem Segment.path {before : Option A} {L : List A} (h : Segment next prev before L none) :
    Path next L.head? L := by
  induction L generalizing before with
  | nil => rfl
  | cons a L ih =>
    have hn : next a = L.head? := by simpa [first] using h.2.1
    exact ⟨rfl, hn ▸ ih h.2.2⟩

theorem Segment.path_back {before after : Option A} {L M : List A}
    (h : Segment next prev before L after) (rest : Path prev before M) :
    Path prev (last before L) (L.reverse ++ M) := by
  induction L generalizing before M with
  | nil => exact rest
  | cons a L ih =>
    rw [last_cons, List.reverse_cons, List.append_assoc]
    exact ih h.2.2 ⟨rfl, h.1.symm ▸ rest⟩

/-- A segment that begins a list is a path backwards. -/
theorem Segment.path_reverse {after : Option A} {L : List A}
    (h : Segment next prev none L after) : Path prev L.getLast? L.reverse := by
  have back := h.path_back (M := []) rfl
  simpa [last] using back

end LinkedSegments
