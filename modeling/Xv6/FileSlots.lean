import Xv6.FileTable

/-!
# References to files and descriptors

A file's `ref` is the number of descriptors that point to it and of references that
calls under way hold. What a step does to the table is one change of one entry and
one of one process, which cancel out in that sum.
-/

namespace FileSlots

open EventRuns FileTable Function Outcomes

variable {n : Nat} {s t : State n}

/-- The descriptors that point to a file. -/
def slots (f : Fin NFILE) (ofile : Fin NOFILE → Option (Fin NFILE)) : Nat :=
  ∑ fd, if ofile fd = some f then 1 else 0

/-- The files that the local variables of a call hold. -/
def held : Pc n → List (Fin NFILE)
  | .opened f _ _ | .piped f => [f]
  | .pair f0 f1 => [f0, f1]
  | .closing fs => fs
  | _ => []

/-- Those of them that the call has still to set up. -/
def unset : Pc n → List (Fin NFILE)
  | .opened f _ _ | .piped f => [f]
  | .pair f0 f1 => [f0, f1]
  | _ => []

/-- The references of a process. -/
def weight (f : Fin NFILE) (x : Proc n) : Nat := slots f x.ofile + (held x.pc).count f

def users (s : State n) (f : Fin NFILE) : Nat := ∑ p, weight f (s.proc p)

/-- Descriptors below this one are closed. -/
def cleared : Pc n → Nat
  | .absent | .zombie => NOFILE
  | .exiting fd => fd
  | _ => 0

structure Refs (s : State n) : Prop where
  refs : ∀ f, (s.ftable f).ref = users s f
  free : ∀ f, (s.ftable f).ref = 0 → (s.ftable f).type = .none
  unset : ∀ p, ∀ f ∈ unset (s.proc p).pc, (s.ftable f).ref = 1 ∧ (s.ftable f).type = .none
  set : ∀ p fd f, (s.proc p).ofile fd = some f → (s.ftable f).type ≠ .none
  cleared : ∀ p (fd : Fin NOFILE), fd.val < cleared (s.proc p).pc → (s.proc p).ofile fd = none

theorem slots_update (o : Fin NOFILE → Option (Fin NFILE)) (fd : Fin NOFILE)
    (v : Option (Fin NFILE)) (f : Fin NFILE) :
    slots f (update o fd v) + (if o fd = some f then 1 else 0)
      = slots f o + if v = some f then 1 else 0 :=
  Tallies.sum_update (fun v => if v = some f then 1 else 0) o fd v

theorem slots_pos {o : Fin NOFILE → Option (Fin NFILE)} {fd : Fin NOFILE} {f : Fin NFILE}
    (here : o fd = some f) : 0 < slots f o := by
  have one := Tallies.le_sum (fun v => if v = some f then 1 else 0) o fd
  simp only [here, if_true] at one
  exact one

theorem weight_le (s : State n) (p : Fin n) (f : Fin NFILE) :
    weight f (s.proc p) ≤ users s f :=
  Tallies.le_sum (weight f) s.proc p

theorem held_pos {f : Fin NFILE} {x : Proc n} (here : f ∈ held x.pc) : 0 < weight f x := by
  have := List.count_pos_iff.mpr here
  unfold weight
  omega

theorem unset_held {f : Fin NFILE} {pc : Pc n} (here : f ∈ unset pc) : f ∈ held pc := by
  cases pc with
  | opened g i omode => exact here
  | piped g => exact here
  | pair g0 g1 => exact here
  | absent => cases here
  | embryo => cases here
  | zombie => cases here
  | idle => cases here
  | opening i omode => cases here
  | piping => cases here
  | closing fs => cases here
  | forking np i pid => cases here
  | exiting fd => cases here

/-- Two processes refer to a file. -/
theorem weights_le (s : State n) {p q : Fin n} (other : p ≠ q) (f : Fin NFILE) :
    weight f (s.proc p) + weight f (s.proc q) ≤ users s f :=
  Tallies.add_le_sum (weight f) s.proc other

/-- What a process may do to an entry of the table: no other call is setting it up, and where it
becomes free nobody else refers to it. -/
structure Touches (s t : State n) (p : Fin n) (f : Fin NFILE) : Prop where
  mine : ∀ q, f ∈ unset (s.proc q).pc → q = p
  free : (t.ftable f).ref = 0 → (t.ftable f).type = .none
  keeps : (t.ftable f).type = .none →
    (s.ftable f).type = .none ∨ users s f = weight f (s.proc p)

/-- A process changes to `x` and the table with it. -/
theorem Refs.change (inv : Refs s) {p : Fin n} {x : Proc n} (proc : t.proc = update s.proc p x)
    (table : ∀ f, t.ftable f = s.ftable f ∨ Touches s t p f)
    (counts : ∀ f, weight f x + (s.ftable f).ref = weight f (s.proc p) + (t.ftable f).ref)
    (unset_ : ∀ f ∈ FileSlots.unset x.pc, (t.ftable f).ref = 1 ∧ (t.ftable f).type = .none)
    (set_ : ∀ fd f, x.ofile fd = some f → (t.ftable f).type ≠ .none)
    (cleared_ : ∀ fd : Fin NOFILE, fd.val < FileSlots.cleared x.pc → x.ofile fd = none) :
    Refs t := by
  have others (q : Fin n) (other : q ≠ p) : t.proc q = s.proc q := by rw [proc, update_of_ne other]
  have self : t.proc p = x := by rw [proc, update_self]
  constructor
  · intro f
    have change := Tallies.sum_update (weight f) s.proc p x
    have old := inv.refs f
    have one := counts f
    have le := weight_le s p f
    simp only [users, proc] at change old le ⊢
    omega
  · intro f zero
    rcases table f with same | touches
    · rw [same] at zero ⊢
      exact inv.free f zero
    · exact touches.free zero
  · intro q f mem
    by_cases same : q = p
    · subst same
      rw [self] at mem
      exact unset_ f mem
    · rw [others q same] at mem
      rcases table f with kept | touches
      · rw [kept]
        exact inv.unset q f mem
      · exact absurd (touches.mine q mem) same
  · intro q fd f points
    by_cases same : q = p
    · subst same
      rw [self] at points
      exact set_ fd f points
    · rw [others q same] at points
      have typed := inv.set q fd f points
      rcases table f with kept | touches
      · rwa [kept]
      · intro none
        rcases touches.keeps none with none | all
        · exact typed none
        · have pos := slots_pos points
          have both := weights_le s same f
          simp only [weight] at both all
          omega
  · intro q fd low
    by_cases same : q = p
    · subst same
      rw [self] at low ⊢
      exact cleared_ fd low
    · rw [others q same] at low ⊢
      exact inv.cleared q fd low

/-- A process goes on without a change of its references. -/
theorem Refs.goes (inv : Refs s) {p : Fin n} {pc : Pc n}
    (proc : t.proc = update s.proc p ⟨pc, (s.proc p).ofile⟩) (ftable : t.ftable = s.ftable)
    (same : held pc = held (s.proc p).pc)
    (unset_ : ∀ f ∈ FileSlots.unset pc, f ∈ FileSlots.unset (s.proc p).pc)
    (cleared_ : ∀ fd : Fin NOFILE, fd.val < FileSlots.cleared pc → (s.proc p).ofile fd = none) :
    Refs t := by
  refine inv.change proc (fun f => .inl (by rw [ftable])) ?_ ?_ ?_ cleared_
  · intro f
    rw [ftable, weight, same, weight]
  · intro f mem
    rw [ftable]
    exact inv.unset p f (unset_ f mem)
  · intro fd f points
    rw [ftable]
    exact inv.set p fd f points

/-- A call that holds no file goes on to where it holds none. -/
theorem Refs.walks (inv : Refs s) {p : Fin n} {pc : Pc n}
    (proc : t.proc = update s.proc p ⟨pc, (s.proc p).ofile⟩) (ftable : t.ftable = s.ftable)
    (before : held (s.proc p).pc = []) (after : held pc = [])
    (cleared_ : ∀ fd : Fin NOFILE, fd.val < FileSlots.cleared pc → (s.proc p).ofile fd = none) :
    Refs t := by
  refine inv.goes proc ftable (after.trans before.symm) ?_ cleared_
  intro f mem
  have := unset_held mem
  simp [after] at this

/-- A file that a descriptor points to is not being set up. -/
theorem Refs.notUnset (inv : Refs s) {p : Fin n} {fd : Fin NOFILE} {f : Fin NFILE}
    (points : (s.proc p).ofile fd = some f) (q : Fin n) : f ∉ FileSlots.unset (s.proc q).pc :=
  fun mem => inv.set p fd f points (inv.unset q f mem).2

/-- A file that a process refers to is not being set up by another. -/
theorem Refs.mine (inv : Refs s) {p : Fin n} {f : Fin NFILE} (pos : 0 < weight f (s.proc p))
    (q : Fin n) (mem : f ∈ FileSlots.unset (s.proc q).pc) : q = p := by
  by_contra other
  have one := (inv.unset q f mem).1
  have also := held_pos (x := s.proc q) (unset_held mem)
  have both := weights_le s other f
  have refs := inv.refs f
  omega

theorem filealloc_free {f : Fin NFILE} (h : filealloc s = some f) : (s.ftable f).ref = 0 := by
  simpa using List.find?_some h

theorem fdalloc_none {p : Fin n} {fd : Fin NOFILE} (h : fdalloc s p = some fd) :
    (s.proc p).ofile fd = none := by
  simpa using List.find?_some h

/-- A call takes a free entry. -/
theorem Refs.take (inv : Refs s) {p : Fin n} {f : Fin NFILE} {pc : Pc n}
    (found : filealloc s = some f)
    (more : ∀ g, (held pc).count g = (held (s.proc p).pc).count g + if f = g then 1 else 0)
    (unset_ : ∀ g ∈ FileSlots.unset pc, g = f ∨ g ∈ FileSlots.unset (s.proc p).pc)
    (cleared_ : FileSlots.cleared pc = 0) : Refs ((taken s f).goTo p pc) := by
  have zero := filealloc_free found
  have none := inv.free f zero
  have self : ((taken s f).goTo p pc).ftable f = { s.ftable f with ref := 1 } := update_self ..
  have table (g : Fin NFILE) (other : g ≠ f) :
      ((taken s f).goTo p pc).ftable g = s.ftable g := update_of_ne other ..
  refine inv.change (x := ⟨pc, (s.proc p).ofile⟩) rfl ?_ ?_ ?_ ?_
    (fun fd low => absurd low (by simp [cleared_]))
  · intro g
    by_cases same : g = f
    · subst same
      right
      refine ⟨fun q mem => ?_, ?_, fun _ => .inl none⟩
      · have := (inv.unset q g mem).1
        omega
      · rw [self]
        exact fun _ => none
    · exact .inl (table g same)
  · intro g
    have count := more g
    by_cases same : g = f
    · subst same
      rw [self]
      simp only [if_true] at count
      simp only [weight]
      omega
    · rw [table g same]
      rw [if_neg (Ne.symm same)] at count
      simp only [weight]
      omega
  · intro g mem
    by_cases same : g = f
    · subst same
      rw [self]
      exact ⟨rfl, none⟩
    · rw [table g same]
      rcases unset_ g mem with here | old
      · exact absurd here same
      · exact inv.unset p g old
  · intro fd g points
    have typed := inv.set p fd g points
    have other : g ≠ f := by
      rintro rfl
      exact typed none
    rwa [table g other]

/-- One reference to a file is given up. -/
structure Dropped (a b : Fin NFILE → File) (f : Fin NFILE) : Prop where
  others : ∀ g, g ≠ f → b g = a g
  ref : (b f).ref + 1 = (a f).ref
  last : (b f).ref = 0 → (b f).type = .none
  more : 0 < (b f).ref → (b f).type = (a f).type

theorem fileclose_ok {f : Fin NFILE} (h : fileclose s f = .ok t) :
    Dropped s.ftable t.ftable f ∧ t.proc = s.proc ∧ t.released =
      if (t.ftable f).ref = 0 then ((s.ftable f).last.map fun l => (f, l)).toList ++ s.released
      else s.released := by
  simp only [fileclose] at h
  split at h
  · cases h
  · rename_i pos
    split at h
    · rename_i more
      cases h
      refine ⟨⟨fun g other => update_of_ne other .., ?_, ?_, ?_⟩, rfl, ?_⟩
      · simp only [State.setFile, update_self]
        omega
      · simp only [State.setFile, update_self]
        intro zero
        omega
      · simp only [State.setFile, update_self]
        exact fun _ => trivial
      · simp only [State.setFile, update_self]
        rw [if_neg (by omega)]
    · rename_i last
      cases h
      refine ⟨⟨fun g other => update_of_ne other .., ?_, ?_, ?_⟩, rfl, ?_⟩
      · simp only [State.setFile, update_self]
        omega
      · simp only [State.setFile, update_self]
        exact fun _ => trivial
      · simp only [State.setFile, update_self]
        exact fun no => absurd no (lt_irrefl 0)
      · simp only [State.setFile, update_self, if_true]

theorem Refs.drops (inv : Refs s) {p : Fin n} {x : Proc n} {f : Fin NFILE}
    (proc : t.proc = update s.proc p x) (drop : Dropped s.ftable t.ftable f)
    (less : ∀ g, weight g x + (if f = g then 1 else 0) = weight g (s.proc p))
    (unset_ : FileSlots.unset x.pc = [])
    (slots_ : ∀ fd g, x.ofile fd = some g → (s.proc p).ofile fd = some g)
    (cleared_ : ∀ fd : Fin NOFILE, fd.val < FileSlots.cleared x.pc → x.ofile fd = none) :
    Refs t := by
  have here := less f
  rw [if_pos rfl] at here
  have ref := drop.ref
  have refs := inv.refs f
  have le := weight_le s p f
  refine inv.change proc ?_ ?_ ?_ ?_ cleared_
  · intro g
    by_cases same : g = f
    · subst same
      right
      refine ⟨inv.mine (by omega), drop.last, ?_⟩
      intro none
      by_cases zero : (t.ftable g).ref = 0
      · right
        omega
      · left
        rw [← drop.more (by omega)]
        exact none
    · exact .inl (drop.others g same)
  · intro g
    have one := less g
    by_cases same : g = f
    · subst same
      omega
    · rw [if_neg (Ne.symm same)] at one
      rw [drop.others g same]
      omega
  · intro g mem
    rw [unset_] at mem
    cases mem
  · intro fd g points
    have typed := inv.set p fd g (slots_ fd g points)
    by_cases same : g = f
    · subst same
      have pos := slots_pos points
      have some : 0 < (t.ftable g).ref := by
        have : slots g x.ofile ≤ weight g x := Nat.le_add_right ..
        omega
      rwa [drop.more some]
    · rwa [drop.others g same]

/-- A reference of the call becomes a descriptor's. -/
theorem Refs.hands (inv : Refs s) {p : Fin n} {pc : Pc n} {f : Fin NFILE} {fd : Fin NOFILE}
    (proc : t.proc = update s.proc p ⟨pc, update (s.proc p).ofile fd (some f)⟩)
    (empty : (s.proc p).ofile fd = none)
    (others : ∀ g, g ≠ f → t.ftable g = s.ftable g)
    (same : (t.ftable f).ref = (s.ftable f).ref) (typed : (t.ftable f).type ≠ .none)
    (less : ∀ g, (held pc).count g + (if f = g then 1 else 0) = (held (s.proc p).pc).count g)
    (unset_ : FileSlots.unset pc = []) (cleared_ : FileSlots.cleared pc = 0) : Refs t := by
  have weights (g : Fin NFILE) :
      weight g ⟨pc, update (s.proc p).ofile fd (some f)⟩ = weight g (s.proc p) := by
    have slot := slots_update (s.proc p).ofile fd (some f) g
    have count := less g
    rw [empty, if_neg (by simp)] at slot
    simp only [Option.some.injEq] at slot
    simp only [weight]
    omega
  have here : 0 < weight f (s.proc p) := by
    have count := less f
    rw [if_pos rfl] at count
    simp only [weight]
    omega
  have pos : (s.ftable f).ref ≠ 0 := by
    have := inv.refs f
    have := weight_le s p f
    omega
  refine inv.change proc ?_ ?_ ?_ ?_ (fun fd low => absurd low (by simp [cleared_]))
  · intro g
    by_cases is : g = f
    · subst is
      exact .inr ⟨inv.mine here, fun zero => absurd (same.symm.trans zero) pos,
        fun none => absurd none typed⟩
    · exact .inl (others g is)
  · intro g
    rw [weights g]
    by_cases is : g = f
    · subst is
      rw [same]
    · rw [others g is]
  · intro g mem
    rw [unset_] at mem
    cases mem
  · intro fd' g points
    simp only at points
    by_cases is : g = f
    · subst is
      exact typed
    · rw [others g is]
      by_cases at_ : fd' = fd
      · subst at_
        rw [update_self] at points
        exact absurd (Option.some.inj points).symm is
      · rw [update_of_ne at_] at points
        exact inv.set p fd' g points

/-- A second descriptor for a file, of the same process or of its child. -/
theorem Refs.dups (inv : Refs s) {p q : Fin n} {pc : Pc n} {f : Fin NFILE} {fd fd' : Fin NOFILE}
    (proc : t.proc = update s.proc p ⟨pc, update (s.proc p).ofile fd' (some f)⟩)
    (ftable : t.ftable = update s.ftable f { s.ftable f with ref := (s.ftable f).ref + 1 })
    (empty : (s.proc p).ofile fd' = none) (points : (s.proc q).ofile fd = some f)
    (before : held (s.proc p).pc = []) (after : held pc = []) (cleared_ : FileSlots.cleared pc = 0) :
    Refs t := by
  have typed := inv.set q fd f points
  have self : t.ftable f = { s.ftable f with ref := (s.ftable f).ref + 1 } := by
    rw [ftable, update_self]
  have table (g : Fin NFILE) (other : g ≠ f) : t.ftable g = s.ftable g := by
    rw [ftable, update_of_ne other]
  refine inv.change proc ?_ ?_ ?_ ?_ (fun fd low => absurd low (by simp [cleared_]))
  · intro g
    by_cases is : g = f
    · subst is
      right
      refine ⟨fun r mem => absurd mem (inv.notUnset points r), ?_, ?_⟩
      · rw [self]
        exact fun zero => absurd zero (Nat.succ_ne_zero _)
      · rw [self]
        exact fun none => absurd none typed
    · exact .inl (table g is)
  · intro g
    have slot := slots_update (s.proc p).ofile fd' (some f) g
    rw [empty, if_neg (by simp)] at slot
    simp only [Option.some.injEq] at slot
    simp only [weight, before, after, List.count_nil]
    by_cases is : g = f
    · subst is
      rw [self]
      rw [if_pos rfl] at slot
      simp only
      omega
    · rw [table g is]
      rw [if_neg (Ne.symm is)] at slot
      omega
  · intro g mem
    have := unset_held mem
    simp [after] at this
  · intro fd'' g slot
    simp only at slot
    have old : (s.ftable g).type ≠ .none := by
      by_cases at_ : fd'' = fd'
      · subst at_
        rw [update_self] at slot
        rwa [← Option.some.inj slot]
      · rw [update_of_ne at_] at slot
        exact inv.set p fd'' g slot
    by_cases is : g = f
    · subst is
      rw [self]
      exact old
    · rwa [table g is]

end FileSlots
