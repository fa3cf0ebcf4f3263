import Mathlib.Data.List.Perm.Subperm
import Xv6.Lib.LinkedSegments
import Xv6.Lib.Outcomes
import Xv6.ProcTable

/-!
# The queues of the multi-level feedback scheduler

The ten list heads `mlfqQueues`, the elements in the pages that `mlfq_enque`
obtained, and the free list of the page allocator. A fault stands for an
access outside an array or for a loop that follows more pages than exist.

`Holds s q` says that the pointers of `s` spell out the lists of pages `q`.
The lists are unique, and each operation is specified by what it does to them.
-/

namespace QueueStore

open ProcTable LinkedSegments Outcomes

abbrev Addr := Nat

inductive Fault where
  | outOfBounds
  | diverges
  deriving DecidableEq, Repr

structure MlfqQueueElement where
  proc : Slot
  next : Option Addr
  prev : Option Addr

/-- `taken` and `failed` are history: the pages that `mlfq_enque` has obtained
and not given back, and how often `kalloc` had no page for it. -/
structure Store where
  head : Level → Option Addr
  mem : Addr → MlfqQueueElement
  freelist : List Addr
  taken : List Addr
  failed : Nat

def Store.next (s : Store) (a : Addr) : Option Addr := (s.mem a).next

def Store.prev (s : Store) (a : Addr) : Option Addr := (s.mem a).prev

def Store.procAt (s : Store) (a : Addr) : Slot := (s.mem a).proc

def Store.setHead (s : Store) (l : Level) (target : Option Addr) : Store :=
  { s with head := Function.update s.head l target }

def Store.setNext (s : Store) (a : Addr) (target : Option Addr) : Store :=
  { s with mem := Function.update s.mem a { s.mem a with next := target } }

def Store.setPrev (s : Store) (a : Addr) (target : Option Addr) : Store :=
  { s with mem := Function.update s.mem a { s.mem a with prev := target } }

def Store.setFreelist (s : Store) (pages : List Addr) : Store :=
  { s with freelist := pages }

def kalloc (s : Store) : Option Addr × Store :=
  match s.freelist with
  | [] => (none, s)
  | a :: rest => (some a, s.setFreelist rest)

def kfree (s : Store) (a : Addr) : Store := s.setFreelist (a :: s.freelist)

/-- `while (tail->next != 0) tail = tail->next`. -/
def findTail (s : Store) : Nat → Addr → Except Fault Addr
  | 0, _ => .error .diverges
  | fuel + 1, tail => match s.next tail with
    | none => .ok tail
    | some next => findTail s fuel next

/-- Link an element that stands alone at the end of queue `l`. -/
def linkLast (s : Store) (l : Level) (new : Addr) : Except Fault Store :=
  match s.head l with
  | none => .ok (s.setHead l (some new))
  | some head => do
    let tail ← findTail s s.taken.length head
    .ok ((s.setNext tail (some new)).setPrev new (some tail))

/-- An element in a fresh page, before it is linked. -/
def Store.newElement (s : Store) (new : Addr) (i : Slot) : Store :=
  { s with taken := new :: s.taken, mem := Function.update s.mem new ⟨i, none, none⟩ }

/-- The history of an allocation that failed. -/
def Store.refused (s : Store) : Store := { s with failed := s.failed + 1 }

def mlfqEnque (s : Store) (l : Level) (i : Slot) : Except Fault Store :=
  match kalloc s with
  | (none, s) => .ok s.refused
  | (some new, s) => linkLast (s.newElement new i) l new

/-- Not called by the scheduler; the one operation that frees its element. -/
def mlfqDeque (s : Store) (l : Level) : Option Slot × Store :=
  match s.head l with
  | none => (none, s)
  | some first =>
    let s := s.setHead l (s.next first)
    let s := match s.head l with
      | none => s
      | some head => s.setPrev head none
    (some (s.procAt first), kfree { s with taken := s.taken.erase first } first)

/-- The search of `mlfq_delete` for an element of process `i`. -/
def findElement (s : Store) (i : Slot) : Nat → Option Addr → Except Fault (Option Addr)
  | _, none => .ok none
  | 0, some _ => .error .diverges
  | fuel + 1, some current =>
    if s.procAt current = i then .ok (some current)
    else findElement s i fuel (s.next current)

def unlink (s : Store) (l : Level) (current : Addr) : Store :=
  let s := match s.prev current with
    | none => s.setHead l (s.next current)
    | some prev => s.setNext prev (s.next current)
  match s.next current with
  | none => s
  | some next => s.setPrev next (s.prev current)

/-- The element is unlinked; its page is neither freed nor overwritten. -/
def mlfqDelete (s : Store) (l : Level) (i : Slot) : Except Fault Store := do
  match ← findElement s i s.taken.length (s.head l) with
  | none => .ok s
  | some current => .ok (unlink s l current)

/-- The elements linked in queue `l`, read off by following `next`. -/
def Store.elements (s : Store) (l : Level) : List Addr :=
  follow s.next s.taken.length (s.head l)

/-- The processes linked in queue `l`, in order. -/
def Store.queue (s : Store) (l : Level) : List Slot :=
  (s.elements l).map s.procAt

@[simp] theorem setHead_next (s : Store) (l : Level) (t : Option Addr) :
    (s.setHead l t).next = s.next := rfl

@[simp] theorem setHead_prev (s : Store) (l : Level) (t : Option Addr) :
    (s.setHead l t).prev = s.prev := rfl

@[simp] theorem setHead_head (s : Store) (l : Level) (t : Option Addr) :
    (s.setHead l t).head = Function.update s.head l t := rfl

@[simp] theorem setHead_procAt (s : Store) (l : Level) (t : Option Addr) :
    (s.setHead l t).procAt = s.procAt := rfl

@[simp] theorem setNext_head (s : Store) (a : Addr) (t : Option Addr) :
    (s.setNext a t).head = s.head := rfl

@[simp] theorem setNext_next (s : Store) (a : Addr) (t : Option Addr) :
    (s.setNext a t).next = Function.update s.next a t := by
  funext b
  by_cases h : b = a <;> simp [Store.next, Store.setNext, h]

@[simp] theorem setNext_prev (s : Store) (a : Addr) (t : Option Addr) :
    (s.setNext a t).prev = s.prev := by
  funext b
  by_cases h : b = a <;> simp [Store.prev, Store.setNext, h]

@[simp] theorem setNext_procAt (s : Store) (a : Addr) (t : Option Addr) :
    (s.setNext a t).procAt = s.procAt := by
  funext b
  by_cases h : b = a <;> simp [Store.procAt, Store.setNext, h]

@[simp] theorem setPrev_head (s : Store) (a : Addr) (t : Option Addr) :
    (s.setPrev a t).head = s.head := rfl

@[simp] theorem setPrev_next (s : Store) (a : Addr) (t : Option Addr) :
    (s.setPrev a t).next = s.next := by
  funext b
  by_cases h : b = a <;> simp [Store.next, Store.setPrev, h]

@[simp] theorem setPrev_prev (s : Store) (a : Addr) (t : Option Addr) :
    (s.setPrev a t).prev = Function.update s.prev a t := by
  funext b
  by_cases h : b = a <;> simp [Store.prev, Store.setPrev, h]

@[simp] theorem setPrev_procAt (s : Store) (a : Addr) (t : Option Addr) :
    (s.setPrev a t).procAt = s.procAt := by
  funext b
  by_cases h : b = a <;> simp [Store.procAt, Store.setPrev, h]

@[simp] theorem setFreelist_next (s : Store) (f : List Addr) :
    (s.setFreelist f).next = s.next := rfl

@[simp] theorem setFreelist_prev (s : Store) (f : List Addr) :
    (s.setFreelist f).prev = s.prev := rfl

@[simp] theorem setFreelist_procAt (s : Store) (f : List Addr) :
    (s.setFreelist f).procAt = s.procAt := rfl

@[simp] theorem refused_procAt (s : Store) : s.refused.procAt = s.procAt := rfl

/-- Two stores that differ in the links of queue elements only. -/
def SamePages (s t : Store) : Prop :=
  t.freelist = s.freelist ∧ t.taken = s.taken ∧ t.failed = s.failed ∧
    t.procAt = s.procAt

theorem unlink_samePages (s : Store) (l : Level) (a : Addr) :
    SamePages s (unlink s l a) := by
  have hfirst : SamePages s (match s.prev a with
      | none => s.setHead l (s.next a)
      | some prev => s.setNext prev (s.next a)) := by
    cases s.prev a with
    | none => exact ⟨rfl, rfl, rfl, rfl⟩
    | some b => exact ⟨rfl, rfl, rfl, by simp⟩
  simp only [unlink]
  generalize (match s.prev a with
    | none => s.setHead l (s.next a)
    | some prev => s.setNext prev (s.next a)) = t at hfirst ⊢
  cases t.next a with
  | none => exact hfirst
  | some c => exact ⟨hfirst.1, hfirst.2.1, hfirst.2.2.1, by simpa using hfirst.2.2.2⟩

structure Holds (s : Store) (q : Level → List Addr) : Prop where
  head : ∀ l, s.head l = (q l).head?
  segment : ∀ l, Segment s.next s.prev none (q l) none
  nodup : ∀ l, (q l).Nodup
  apart : ∀ l l' a, a ∈ q l → a ∈ q l' → l = l'
  taken : ∀ l, ∀ a ∈ q l, a ∈ s.taken
  free : ∀ a ∈ s.freelist, a ∉ s.taken
  freeNodup : s.freelist.Nodup
  takenNodup : s.taken.Nodup

namespace Holds

variable {s : Store} {q : Level → List Addr}

theorem length_le (h : Holds s q) (l : Level) : (q l).length ≤ s.taken.length :=
  (List.subperm_of_subset (h.nodup l) (h.taken l)).length_le

theorem elements_eq (h : Holds s q) : s.elements = q := by
  funext l
  rw [Store.elements, h.head l]
  exact (h.segment l).follow_eq (h.length_le l)

theorem queue_eq (h : Holds s q) (l : Level) : s.queue l = (q l).map s.procAt := by
  rw [Store.queue, h.elements_eq]

theorem next_of_split (h : Holds s q) {l : Level} {D R : List Addr} {a : Addr}
    (split : q l = D ++ a :: R) : s.next a = R.head? := by
  have hseg := h.segment l
  rw [split] at hseg
  simpa [first] using hseg.next_eq

theorem refused (h : Holds s q) : Holds s.refused q :=
  ⟨h.head, h.segment, h.nodup, h.apart, h.taken, h.free, h.freeNodup, h.takenNodup⟩

theorem unique {q' : Level → List Addr} (h : Holds s q) (h' : Holds s q') : q = q' :=
  h.elements_eq.symm.trans h'.elements_eq

/-- Relinking one queue: its new list is a segment of its own, every page of it
is old or was in no queue, and the links of all other elements are untouched. -/
theorem replace (h : Holds s q) {t : Store} {l : Level} {L : List Addr}
    (heads : t.head = Function.update s.head l L.head?)
    (segment : Segment t.next t.prev none L none) (nodup : L.Nodup)
    (origin : ∀ a ∈ L, a ∈ q l ∨ ∀ l', a ∉ q l')
    (taken : ∀ a ∈ L, a ∈ t.taken)
    (kept : ∀ l', l' ≠ l → ∀ a ∈ q l', a ∈ t.taken)
    (free : ∀ a ∈ t.freelist, a ∉ t.taken) (freeNodup : t.freelist.Nodup)
    (takenNodup : t.taken.Nodup)
    (frame : ∀ b, b ∉ q l → b ∉ L → t.next b = s.next b ∧ t.prev b = s.prev b) :
    Holds t (Function.update q l L) := by
  have hout : ∀ l', l' ≠ l → ∀ b ∈ q l', b ∉ q l ∧ b ∉ L := by
    intro l' hl b hb
    refine ⟨fun hb' => hl (h.apart l' l b hb hb'), fun hL => ?_⟩
    rcases origin b hL with hb' | hb'
    · exact hl (h.apart l' l b hb hb')
    · exact hb' l' hb
  refine ⟨?_, ?_, ?_, ?_, ?_, free, freeNodup, takenNodup⟩
  · intro l'
    by_cases hl : l' = l
    · subst hl
      simp [heads]
    · simp [heads, hl, h.head l']
  · intro l'
    by_cases hl : l' = l
    · subst hl
      simpa using segment
    · have hsame := fun b hb => frame b (hout l' hl b hb).1 (hout l' hl b hb).2
      simp only [Function.update_of_ne hl]
      exact (h.segment l').frame (fun b hb => (hsame b hb).1) (fun b hb => (hsame b hb).2)
  · intro l'
    by_cases hl : l' = l
    · subst hl
      simpa using nodup
    · simpa [hl] using h.nodup l'
  · intro l₁ l₂ a h₁ h₂
    by_cases e₁ : l₁ = l
    · by_cases e₂ : l₂ = l
      · exact e₁.trans e₂.symm
      · have ha : a ∈ L := by simpa [e₁] using h₁
        exact absurd ha (hout l₂ e₂ a (by simpa [e₂] using h₂)).2
    · by_cases e₂ : l₂ = l
      · have ha : a ∈ L := by simpa [e₂] using h₂
        exact absurd ha (hout l₁ e₁ a (by simpa [e₁] using h₁)).2
      · exact h.apart l₁ l₂ a (by simpa [e₁] using h₁) (by simpa [e₂] using h₂)
  · intro l' a ha
    by_cases hl : l' = l
    · subst hl
      exact taken a (by simpa using ha)
    · exact kept l' hl a (by simpa [hl] using ha)

end Holds

theorem findTail_eq {s : Store} {before : Option Addr} {L : List Addr} {z : Addr}
    {fuel : Nat} {a : Addr} (h : Segment s.next s.prev before (L ++ [z]) none)
    (ha : (L ++ [z]).head? = some a) (enough : L.length < fuel) :
    findTail s fuel a = .ok z := by
  induction L generalizing before fuel a with
  | nil =>
    obtain ⟨fuel, rfl⟩ : ∃ f, fuel = f + 1 := ⟨fuel - 1, by simp at enough; omega⟩
    have hz : a = z := by simpa using ha.symm
    subst a
    have hn : s.next z = none := h.2.1
    simp [findTail, hn]
  | cons b L ih =>
    obtain ⟨fuel, rfl⟩ : ∃ f, fuel = f + 1 := ⟨fuel - 1, by simp at enough; omega⟩
    have hb : b = a := by simpa using ha
    subst b
    obtain ⟨c, hc⟩ : ∃ c, (L ++ [z]).head? = some c := by cases L <;> simp
    have hn : s.next a = some c := by simpa [first, hc] using h.2.1
    simp only [findTail, hn]
    exact ih h.2.2 hc (by simpa using enough)

/-- The search stops at the first element of the process. -/
theorem findElement_eq {s : Store} {i : Slot} {before : Option Addr}
    {L : List Addr} {fuel : Nat} (h : Segment s.next s.prev before L none)
    (enough : L.length ≤ fuel) :
    findElement s i fuel L.head? = .ok (L.find? fun a => s.procAt a = i) := by
  induction L generalizing before fuel with
  | nil => cases fuel <;> rfl
  | cons a L ih =>
    obtain ⟨fuel, rfl⟩ : ∃ f, fuel = f + 1 := ⟨fuel - 1, by simp at enough; omega⟩
    have hn : s.next a = L.head? := by simpa [first] using h.2.1
    by_cases ha : s.procAt a = i
    · simp [findElement, ha]
    · simp only [List.head?_cons, findElement, if_neg ha, hn]
      rw [ih h.2.2 (by simpa using enough), List.find?_cons_of_neg (by simpa using ha)]

/-- What a successful allocation adds to queue `l`. -/
structure Enqueued (s : Store) (q : Level → List Addr) (l : Level) (i : Slot)
    (new : Addr) (t : Store) : Prop where
  holds : Holds t (Function.update q l (q l ++ [new]))
  procAt : t.procAt = Function.update s.procAt new i
  freelist : s.freelist = new :: t.freelist
  taken : t.taken = new :: s.taken
  failed : t.failed = s.failed

theorem mlfqEnque_full {s : Store} (l : Level) (i : Slot) (h : s.freelist = []) :
    mlfqEnque s l i = .ok s.refused := by
  simp [mlfqEnque, kalloc, h]

@[simp] theorem newElement_next (s : Store) (new : Addr) (i : Slot) :
    (s.newElement new i).next = Function.update s.next new none := by
  funext b
  by_cases hb : b = new <;> simp [Store.newElement, Store.next, hb]

@[simp] theorem newElement_prev (s : Store) (new : Addr) (i : Slot) :
    (s.newElement new i).prev = Function.update s.prev new none := by
  funext b
  by_cases hb : b = new <;> simp [Store.newElement, Store.prev, hb]

@[simp] theorem newElement_procAt (s : Store) (new : Addr) (i : Slot) :
    (s.newElement new i).procAt = Function.update s.procAt new i := by
  funext b
  by_cases hb : b = new <;> simp [Store.newElement, Store.procAt, hb]

/-- Linking a lone element yields the extended segment. -/
theorem linkLast_spec {s : Store} {l : Level} {L : List Addr} {new : Addr}
    (head : s.head l = L.head?) (segment : Segment s.next s.prev none L none)
    (nodup : L.Nodup) (fresh : new ∉ L) (alone : s.next new = none ∧ s.prev new = none)
    (enough : L.length ≤ s.taken.length) :
    Yields (linkLast s l new) fun t =>
      SamePages s t ∧ t.head = Function.update s.head l (L ++ [new]).head? ∧
      Segment t.next t.prev none (L ++ [new]) none ∧
      ∀ b, b ∉ L → b ≠ new → t.next b = s.next b ∧ t.prev b = s.prev b := by
  rcases List.eq_nil_or_concat L with rfl | ⟨M, z, hL⟩
  · have hhead : s.head l = none := head
    simp only [linkLast, hhead]
    refine yields_ok ⟨⟨rfl, rfl, rfl, rfl⟩, rfl, ?_, fun b _ _ => ⟨rfl, rfl⟩⟩
    exact ⟨alone.2, alone.1, trivial⟩
  · rw [List.concat_eq_append] at hL
    subst hL
    obtain ⟨a, ha⟩ : ∃ a, (M ++ [z]).head? = some a := by cases M <;> simp
    have htail : findTail s s.taken.length a = .ok z := by
      refine findTail_eq segment ha ?_
      simp only [List.length_append, List.length_singleton] at enough
      omega
    have hne : z ≠ new := fun e => fresh (by simp [e])
    simp only [linkLast, head.trans ha, htail, Bind.bind, Except.bind]
    refine yields_ok ⟨⟨rfl, rfl, rfl, by simp⟩, ?_, ?_, ?_⟩
    · have hfirst : (M ++ [z] ++ [new]).head? = some a := by
        rw [List.head?_append, ha]
        rfl
      rw [hfirst]
      funext l'
      by_cases hl : l' = l
      · subst hl
        simp [head.trans ha]
      · simp [hl]
    · rw [segment_append]
      simp only [setPrev_next, setNext_next, setPrev_prev, setNext_prev, first_cons]
      constructor
      · refine (segment.redirect_exit nodup).frame (fun _ _ => rfl) ?_
        intro b hb
        have hb' : b ≠ new := fun e => fresh (e ▸ hb)
        simp [hb']
      · simp [Segment, hne.symm, alone.1]
    · intro b hb hb'
      have hbz : b ≠ z := fun e => hb (by simp [e])
      simp [hb', hbz]

theorem mlfqEnque_spec {s : Store} {q : Level → List Addr} (h : Holds s q)
    (l : Level) (i : Slot) {new : Addr} {rest : List Addr}
    (page : s.freelist = new :: rest) :
    Yields (mlfqEnque s l i) (Enqueued s q l i new) := by
  have hnew : new ∉ s.taken := h.free new (by simp [page])
  have hfresh : ∀ l', new ∉ q l' := fun l' hl => hnew (h.taken l' new hl)
  have hrest : new ∉ rest ∧ rest.Nodup := by simpa [page] using h.freeNodup
  have hstep : mlfqEnque s l i =
      linkLast ((s.setFreelist rest).newElement new i) l new := by
    simp [mlfqEnque, kalloc, page]
  have hseg : Segment (Function.update s.next new none) (Function.update s.prev new none)
      none (q l) none := by
    refine (h.segment l).frame ?_ ?_ <;>
    · intro a ha
      have hne : a ≠ new := fun e => hfresh l (e ▸ ha)
      simp [hne]
  have henough : (q l).length ≤ ((s.setFreelist rest).newElement new i).taken.length :=
    Nat.le_succ_of_le (h.length_le l)
  have hlink := @linkLast_spec ((s.setFreelist rest).newElement new i) l (q l) new
    (h.head l) (by simpa using hseg) (h.nodup l) (hfresh l) (by simp) henough
  rw [hstep]
  refine hlink.mono ?_
  rintro t ⟨⟨hfree, htaken, hfailed, hproc⟩, hhead, hsegment, hframe⟩
  have htaken' : t.taken = new :: s.taken := htaken
  refine ⟨?_, by simpa using hproc, by rw [hfree]; exact page, htaken', hfailed⟩
  refine h.replace hhead hsegment ?_ ?_ ?_ ?_ ?_ (hfree ▸ hrest.2) ?_ ?_
  · exact List.nodup_append.mpr ⟨h.nodup l, List.nodup_singleton _, by
      intro a ha b hb e
      rw [List.mem_singleton.mp hb] at e
      exact hfresh l (e ▸ ha)⟩
  · intro a ha
    rcases List.mem_append.mp ha with ha | ha
    · exact Or.inl ha
    · exact Or.inr (List.mem_singleton.mp ha ▸ hfresh)
  · intro a ha
    rw [htaken']
    rcases List.mem_append.mp ha with ha | ha
    · exact List.mem_cons_of_mem _ (h.taken l a ha)
    · exact List.mem_singleton.mp ha ▸ List.mem_cons_self
  · intro l' _ a ha
    rw [htaken']
    exact List.mem_cons_of_mem _ (h.taken l' a ha)
  · intro a ha
    rw [hfree] at ha
    have hne : a ≠ new := fun e => hrest.1 (e ▸ ha)
    have hold : a ∉ s.taken := h.free a (page ▸ List.mem_cons_of_mem _ ha)
    simp [htaken', hne, hold]
  · rw [htaken']
    exact List.nodup_cons.mpr ⟨hnew, h.takenNodup⟩
  · intro b hb hb'
    have hne : b ≠ new := fun e => hb' (by simp [e])
    simpa [hne] using hframe b hb hne

/-- Unlinking a node joins what stands before it to what stands after it. The
node keeps its own links, so a walk that stands on it can go on. -/
theorem unlink_spec {s : Store} {l : Level} {L M : List Addr} {a : Addr}
    (head : s.head l = (L ++ a :: M).head?)
    (segment : Segment s.next s.prev none (L ++ a :: M) none)
    (nodup : (L ++ a :: M).Nodup) :
    (unlink s l a).head = Function.update s.head l (L ++ M).head? ∧
    Segment (unlink s l a).next (unlink s l a).prev none (L ++ M) none ∧
    (unlink s l a).next a = s.next a ∧
    ∀ b, b ∉ L ++ a :: M →
      (unlink s l a).next b = s.next b ∧ (unlink s l a).prev b = s.prev b := by
  have hn : s.next a = M.head? := by simpa [first] using segment.next_eq
  have hp : s.prev a = L.getLast? := by simpa [last] using segment.prev_eq
  obtain ⟨before, -, -, after⟩ := segment_append.mp segment
  have hM : (a :: M).Nodup := (List.nodup_append.mp nodup).2.1
  have haM : a ∉ M := (List.nodup_cons.mp hM).1
  have hMn : M.Nodup := (List.nodup_cons.mp hM).2
  have hLM : ∀ b ∈ L, b ≠ a ∧ b ∉ M := by
    intro b hb
    have hb' := (List.nodup_append.mp nodup).2.2 b hb
    exact ⟨hb' a List.mem_cons_self, fun hm => hb' b (List.mem_cons_of_mem a hm) rfl⟩
  rw [segment_append]
  rcases List.eq_nil_or_concat L with rfl | ⟨L, z, hL⟩
  · have hprev : s.prev a = none := hp
    cases M with
    | nil =>
      have hnext : s.next a = none := hn
      simp [unlink, hprev, hnext, Segment]
    | cons c M =>
      have hnext : s.next a = some c := hn
      have hca : a ≠ c := fun e => haM (by simp [e])
      simp only [unlink, hprev, hnext, setHead_next, setHead_prev]
      refine ⟨by simp, ⟨trivial, ?_⟩, by simp [hnext], ?_⟩
      · simpa using after.redirect_entry hMn
      · intro b hb
        have hbc : b ≠ c := fun e => hb (by simp [e])
        simp [hbc]
  · rw [List.concat_eq_append] at hL
    subst hL
    have hprev : s.prev a = some z := by simpa using hp
    have hz := hLM z (by simp)
    have hLn : (L ++ [z]).Nodup := (List.nodup_append.mp nodup).1
    have hhead : Function.update s.head l ((L ++ [z]) ++ M).head? = s.head := by
      have hsame : ((L ++ [z]) ++ M).head? = s.head l := by
        rw [head]
        cases L <;> simp
      rw [hsame, Function.update_eq_self]
    have hexit : Segment (Function.update s.next z M.head?) s.prev none (L ++ [z])
        M.head? := by
      exact before.redirect_exit hLn
    rw [hhead]
    cases M with
    | nil =>
      have hnext : s.next a = none := hn
      simp only [unlink, hprev, hnext, setNext_next, setNext_prev,
        Function.update_of_ne hz.1.symm]
      refine ⟨rfl, ⟨hexit, trivial⟩, trivial, ?_⟩
      intro b hb
      have hbz : b ≠ z := fun e => hb (by simp [e])
      simp [hbz]
    | cons c M =>
      have hnext : s.next a = some c := hn
      have hca : a ≠ c := fun e => haM (by simp [e])
      have hzM : ∀ b ∈ c :: M, b ≠ z := fun b hb e => hz.2 (e ▸ hb)
      have hcL : ∀ b ∈ L ++ [z], b ≠ c := fun b hb e => (hLM b hb).2 (by simp [e])
      simp only [unlink, hprev, hnext, setNext_next, setNext_prev, setPrev_next,
        setPrev_prev, Function.update_of_ne hz.1.symm]
      refine ⟨rfl, ⟨?_, ?_⟩, trivial, ?_⟩
      · refine hexit.frame (fun _ _ => rfl) ?_
        intro b hb
        simp [hcL b hb]
      · rw [last_concat]
        refine (after.redirect_entry hMn).frame ?_ (fun _ _ => rfl)
        intro b hb
        simp [hzM b hb]
      · intro b hb
        have hbz : b ≠ z := fun e => hb (by simp [e])
        have hbc : b ≠ c := fun e => hb (by simp [e])
        simp [hbz, hbc]

/-- What `mlfq_delete` does to queue `l`: the first element of the process goes,
and a node that stays or goes keeps leading to the node that followed it. -/
structure Deleted (s : Store) (q : Level → List Addr) (l : Level) (i : Slot)
    (t : Store) : Prop where
  holds : Holds t (Function.update q l ((q l).eraseP fun a => s.procAt a = i))
  pages : SamePages s t
  next : ∀ b ∈ q l, b ∉ (q l).eraseP (fun a => s.procAt a = i) → t.next b = s.next b

theorem mlfqDelete_spec {s : Store} {q : Level → List Addr} (h : Holds s q)
    (l : Level) (i : Slot) : Yields (mlfqDelete s l i) (Deleted s q l i) := by
  have hfind : findElement s i s.taken.length (s.head l) =
      .ok ((q l).find? fun a => s.procAt a = i) := by
    rw [h.head l]
    exact findElement_eq (h.segment l) (h.length_le l)
  simp only [mlfqDelete, hfind, Bind.bind, Except.bind]
  cases hq : (q l).find? fun a => s.procAt a = i with
  | none =>
    have hnone : ∀ a ∈ q l, ¬ s.procAt a = i := by simpa using hq
    have herase : (q l).eraseP (fun a => s.procAt a = i) = q l :=
      List.eraseP_of_forall_not (by simpa using hnone)
    refine yields_ok ⟨?_, ⟨rfl, rfl, rfl, rfl⟩, fun _ _ _ => rfl⟩
    rw [herase, Function.update_eq_self]
    exact h
  | some a =>
    obtain ⟨hpa, L, M, hsplit, hL⟩ := List.find?_eq_some_iff_append.mp hq
    have herase : (q l).eraseP (fun a => s.procAt a = i) = L ++ M := by
      rw [hsplit, List.eraseP_append_right _ (by simpa using hL)]
      simp [of_decide_eq_true hpa]
    have hsub : (L ++ M).Sublist (q l) := by
      rw [hsplit]
      exact List.Sublist.append_left (List.sublist_cons_self a M) L
    obtain ⟨hhead, hseg, hnext, hframe⟩ := unlink_spec (hsplit ▸ h.head l)
      (hsplit ▸ h.segment l) (hsplit ▸ h.nodup l)
    have hpages := unlink_samePages s l a
    have hfree := hpages.1
    have htaken := hpages.2.1
    refine yields_ok ⟨?_, hpages, ?_⟩
    · rw [herase]
      refine h.replace hhead hseg (hsub.nodup (h.nodup l)) ?_ ?_ ?_ ?_
        (hfree ▸ h.freeNodup) (htaken ▸ h.takenNodup) ?_
      · exact fun b hb => Or.inl (hsub.subset hb)
      · exact fun b hb => htaken ▸ h.taken l b (hsub.subset hb)
      · exact fun l' _ b hb => htaken ▸ h.taken l' b hb
      · rw [hfree, htaken]
        exact h.free
      · exact fun b hb _ => hframe b (hsplit ▸ hb)
    · intro b hb hb'
      have hba : b = a := by
        rw [hsplit] at hb
        rw [herase] at hb'
        simp only [List.mem_append, List.mem_cons, not_or] at hb hb'
        tauto
      exact hba ▸ hnext

/-- Taking the first element off a queue gives its page back. -/
theorem mlfqDeque_spec {s : Store} {q : Level → List Addr} (h : Holds s q) {l : Level}
    {a : Addr} {rest : List Addr} (split : q l = a :: rest) :
    (mlfqDeque s l).1 = some (s.procAt a) ∧
      Holds (mlfqDeque s l).2 (Function.update q l rest) ∧
      (mlfqDeque s l).2.procAt = s.procAt ∧
      (mlfqDeque s l).2.freelist = a :: s.freelist ∧
      (mlfqDeque s l).2.taken = s.taken.erase a := by
  have head : s.head l = some a := by rw [h.head l, split, List.head?_cons]
  have next : s.next a = rest.head? := h.next_of_split (l := l) (D := []) split
  obtain ⟨fresh, nodup⟩ := List.nodup_cons.mp (split ▸ h.nodup l)
  have segment : Segment s.next s.prev (some a) rest none := by
    have whole := h.segment l
    rw [split] at whole
    exact whole.2.2
  have taken : a ∈ s.taken := h.taken l a (by simp [split])
  have replaced : ∀ t : Store, t.head = Function.update s.head l rest.head? →
      Segment t.next t.prev none rest none → t.freelist = a :: s.freelist →
      t.taken = s.taken.erase a →
      (∀ b, b ∉ q l → t.next b = s.next b ∧ t.prev b = s.prev b) →
      Holds t (Function.update q l rest) := by
    intro t heads seg free gone frame
    refine h.replace heads seg nodup ?_ ?_ ?_ ?_ ?_ ?_ fun b hb _ => frame b hb
    · exact fun b hb => Or.inl (by simp [split, hb])
    · intro b hb
      have hba : b ≠ a := fun heq => fresh (heq ▸ hb)
      rw [gone]
      exact (List.mem_erase_of_ne hba).mpr (h.taken l b (by simp [split, hb]))
    · intro l' hl b hb
      have hba : b ≠ a := fun heq => hl (h.apart l' l b hb (by simp [split, heq]))
      rw [gone]
      exact (List.mem_erase_of_ne hba).mpr (h.taken l' b hb)
    · intro b hb hmem
      rw [gone] at hmem
      rw [free] at hb
      rcases List.mem_cons.mp hb with rfl | hb
      · exact h.takenNodup.not_mem_erase hmem
      · exact h.free b hb (List.mem_of_mem_erase hmem)
    · rw [free]
      exact List.nodup_cons.mpr ⟨fun hb => h.free a hb taken, h.freeNodup⟩
    · rw [gone]
      exact h.takenNodup.erase a
  cases rest with
  | nil =>
    have value : mlfqDeque s l = (some (s.procAt a),
        kfree { s.setHead l none with taken := s.taken.erase a } a) := by
      have last : s.next a = none := next
      simp only [mlfqDeque, head, last, setHead_head, Function.update_self]
      rfl
    rw [value]
    exact ⟨rfl, replaced _ rfl trivial rfl rfl fun b _ => ⟨rfl, rfl⟩, rfl, rfl, rfl⟩
  | cons c rest =>
    have value : mlfqDeque s l = (some (s.procAt a),
        kfree { (s.setHead l (some c)).setPrev c none with taken := s.taken.erase a } a) := by
      have second : s.next a = some c := next
      simp only [mlfqDeque, head, second, setHead_head, Function.update_self]
      exact Prod.ext (by simp) rfl
    rw [value]
    have links : ((s.setHead l (some c)).setPrev c none).next = s.next ∧
        ((s.setHead l (some c)).setPrev c none).prev = Function.update s.prev c none := by
      simp
    refine ⟨rfl, replaced _ rfl ?_ rfl rfl ?_, ?_, rfl, rfl⟩
    · change Segment ((s.setHead l (some c)).setPrev c none).next
        ((s.setHead l (some c)).setPrev c none).prev none (c :: rest) none
      rw [links.1, links.2]
      exact segment.redirect_entry nodup
    · intro b hb
      have hbc : b ≠ c := fun heq => hb (by simp [split, heq])
      change ((s.setHead l (some c)).setPrev c none).next b = s.next b ∧
        ((s.setHead l (some c)).setPrev c none).prev b = s.prev b
      rw [links.1, links.2, Function.update_of_ne hbc]
      exact ⟨rfl, rfl⟩
    · change ((s.setHead l (some c)).setPrev c none).procAt = s.procAt
      simp

/-- The queues as lists of processes. -/
theorem Enqueued.queue {s t : Store} {q : Level → List Addr} {l : Level} {i : Slot}
    {new : Addr} (h : Holds s q) (e : Enqueued s q l i new t) :
    t.queue = Function.update s.queue l (s.queue l ++ [i]) := by
  have hnew : ∀ l', ∀ a ∈ q l', a ≠ new := by
    intro l' a ha heq
    exact h.free new (e.freelist ▸ List.mem_cons_self) (heq ▸ h.taken l' a ha)
  have hold : ∀ l', (q l').map t.procAt = s.queue l' := by
    intro l'
    rw [h.queue_eq l', e.procAt]
    exact List.map_congr_left fun a ha => by simp [hnew l' a ha]
  funext l'
  rw [e.holds.queue_eq l']
  by_cases hl : l' = l
  · subst hl
    simp only [Function.update_self, List.map_append, hold, List.map_singleton]
    simp [e.procAt]
  · simp [hl, hold]

theorem Deleted.queue {s t : Store} {q : Level → List Addr} {l : Level} {i : Slot}
    (h : Holds s q) (d : Deleted s q l i t) :
    t.queue = Function.update s.queue l ((s.queue l).erase i) := by
  funext l'
  rw [d.holds.queue_eq l', d.pages.2.2.2]
  by_cases hl : l' = l
  · subst hl
    rw [Function.update_self, Function.update_self, h.queue_eq l', List.erase_eq_eraseP',
      List.eraseP_map]
    rfl
  · simp [hl, h.queue_eq l']

/-- A walk that stands on an element of the deleted process goes on to the same
elements, whether that element or an earlier one of the process was unlinked. -/
theorem Deleted.cursor {s t : Store} {q : Level → List Addr} {l : Level} {i : Slot}
    (h : Holds s q) (d : Deleted s q l i t) {D R : List Addr} {a : Addr}
    (split : q l = D ++ a :: R) (here : s.procAt a = i) :
    (∃ D', (q l).eraseP (fun a => s.procAt a = i) = D' ++ R) ∧ t.next a = R.head? := by
  have hnext : s.next a = R.head? := h.next_of_split split
  by_cases hD : ∃ b ∈ D, s.procAt b = i
  · have herase : (q l).eraseP (fun a => s.procAt a = i) =
        D.eraseP (fun a => s.procAt a = i) ++ a :: R := by
      obtain ⟨b, hb, hi⟩ := hD
      rw [split, List.eraseP_append_left (by simpa using hi) _ hb]
    have hseg := d.holds.segment l
    rw [Function.update_self, herase] at hseg
    refine ⟨⟨D.eraseP (fun a => s.procAt a = i) ++ [a], by simp [herase]⟩, ?_⟩
    simpa [first] using hseg.next_eq
  · have herase : (q l).eraseP (fun a => s.procAt a = i) = D ++ R := by
      have hno : ∀ b ∈ D, ¬ s.procAt b = i := fun b hb hi => hD ⟨b, hb, hi⟩
      rw [split, List.eraseP_append_right _ (by simpa using hno)]
      simp [here]
    refine ⟨⟨D, herase⟩, ?_⟩
    rw [d.next a (by simp [split]), hnext]
    rw [herase]
    have hn := h.nodup l
    rw [split] at hn
    have hm := (List.perm_middle.nodup_iff).mp hn
    exact (List.nodup_cons.mp hm).1

/-- The pointers spell out some lists. -/
def Wf (s : Store) : Prop := ∃ q, Holds s q

theorem Wf.setFreelist {s : Store} (w : Wf s) {pages : List Addr} (nodup : pages.Nodup)
    (free : ∀ a ∈ pages, a ∉ s.taken) : Wf (s.setFreelist pages) := by
  obtain ⟨q, h⟩ := w
  exact ⟨q, h.head, h.segment, h.nodup, h.apart, h.taken, free, nodup, h.takenNodup⟩

/-- `mlfq_enque` appends the process, or drops it when there is no page. -/
theorem enque_effect {s t : Store} {l : Level} {i : Slot} (w : Wf s)
    (h : mlfqEnque s l i = .ok t) :
    Wf t ∧
    ((s.freelist = [] ∧ t = s.refused ∧ t.queue = s.queue) ∨
      (t.queue = Function.update s.queue l (s.queue l ++ [i]) ∧ t.failed = s.failed ∧
        t.taken.length = s.taken.length + 1 ∧
        s.freelist.length = t.freelist.length + 1)) := by
  obtain ⟨q, hq⟩ := w
  by_cases hf : s.freelist = []
  · rw [mlfqEnque_full l i hf] at h
    have ht := (Except.ok.inj h).symm
    exact ⟨⟨q, ht ▸ hq.refused⟩, Or.inl ⟨hf, ht, by rw [ht]; rfl⟩⟩
  · obtain ⟨new, rest, hf⟩ := List.exists_cons_of_ne_nil hf
    have e := (mlfqEnque_spec hq l i hf).of_ok h
    refine ⟨⟨_, e.holds⟩, Or.inr ⟨e.queue hq, e.failed, by simp [e.taken], ?_⟩⟩
    rw [e.freelist]
    rfl

/-- `mlfq_delete` removes the first occurrence and keeps every page. -/
theorem delete_effect {s t : Store} {l : Level} {i : Slot} (w : Wf s)
    (h : mlfqDelete s l i = .ok t) :
    Wf t ∧ t.queue = Function.update s.queue l ((s.queue l).erase i) ∧
      t.failed = s.failed ∧ t.taken = s.taken ∧ t.freelist = s.freelist := by
  obtain ⟨q, hq⟩ := w
  have d := (mlfqDelete_spec hq l i).of_ok h
  exact ⟨⟨_, d.holds⟩, d.queue hq, d.pages.2.2.1, d.pages.2.1, d.pages.1⟩

theorem enque_total {s : Store} (w : Wf s) (l : Level) (i : Slot) :
    ∃ t, mlfqEnque s l i = .ok t := by
  obtain ⟨q, hq⟩ := w
  cases hf : s.freelist with
  | nil => exact ⟨_, mlfqEnque_full l i hf⟩
  | cons new rest =>
    obtain ⟨t, ht, -⟩ := mlfqEnque_spec hq l i hf
    exact ⟨t, ht⟩

theorem delete_total {s : Store} (w : Wf s) (l : Level) (i : Slot) :
    ∃ t, mlfqDelete s l i = .ok t := by
  obtain ⟨q, hq⟩ := w
  obtain ⟨t, ht, -⟩ := mlfqDelete_spec hq l i
  exact ⟨t, ht⟩

end QueueStore
