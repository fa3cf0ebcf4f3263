import Xv6.InodeTable
import Xv6.Lib.Outcomes

/-!
# Inodes in memory and on disk

Each entry of the inode table with references is the only one for its inode, and its copy
agrees with the disk in a way that depends on what the process with its lock does. An
inode that is free on disk has no valid copy, so `ialloc` never takes one away from a
process that works with it.
-/

namespace InodeSharing

open EventRuns Function InodeTable Outcomes
open FileBlocks (Dinode)

variable {n : Nat} {s t : State n} {p q : Fin n} {ip i : Ip} {c : Pc}

inductive Mode
  /-- No process works with the copy. -/
  | settled
  /-- Read, and not yet valid. -/
  | read
  | held
  | freeing
  | freed
  deriving DecidableEq

/-- The mode of an entry that a process has locked. -/
def modeOf (i : Ip) : Pc → Mode
  | .loading ip => if ip = i then .settled else .held
  | .loaded ip => if ip = i then .read else .held
  | .truncating ip | .clearing ip => if ip = i then .freeing else .held
  | .releasing ip => if ip = i then .freed else .held
  | _ => .held

def mode (s : State n) (i : Ip) : Mode :=
  match (s.itable i).lock with
  | none => .settled
  | some p => modeOf i (s.pc p)

/-- How the copy of an entry and the inode on disk agree. -/
def Fits (x : Inode n) (d : Dinode) (dirty : Bool) : Mode → Prop
  | .settled => x.valid = true → x.copy = d ∧ d.type ≠ 0
  | .read => x.valid = false ∧ (x.copy.type ≠ 0 → x.copy = d)
  | .held => x.valid = true ∧ x.copy.type ≠ 0 ∧ d.type = x.copy.type ∧ (dirty = false → x.copy = d)
  | .freeing => x.valid = true ∧ x.copy = d ∧ d.type ≠ 0 ∧ d.nlink = 0
  | .freed => True

/-- The entry that a call is about. -/
def about : Pc → Option Ip
  | .idle | .scanning .. | .getting .. => none
  | .locking ip | .loading ip | .loaded ip | .truncating ip | .clearing ip | .releasing ip
  | .dropping ip => some ip

/-- The entry whose lock a call has. -/
def locks : Pc → Option Ip
  | .loading ip | .loaded ip | .truncating ip | .clearing ip | .releasing ip => some ip
  | _ => none

structure EntryInv (s : State n) (i : Ip) : Prop where
  counted : s.needed i ≤ (s.itable i).ref
  locked : ∀ p, locks (s.pc p) = some i → (s.itable i).lock = some p
  clean : s.dirty i = true → mode s i = .held
  fits : 0 < (s.itable i).ref →
    Fits (s.itable i) (s.disk (s.itable i).key) (s.dirty i) (mode s i)
  calm : mode s i = .freeing → s.calm i = true → (s.itable i).ref = 1

structure Inv (s : State n) : Prop where
  unique : ∀ i j, 0 < (s.itable i).ref → 0 < (s.itable j).ref →
    (s.itable i).key = (s.itable j).key → i = j
  entry : ∀ i, EntryInv s i

theorem mode_none (free : (s.itable i).lock = none) : mode s i = .settled := by simp [mode, free]

theorem mode_some (lock : (s.itable i).lock = some p) : mode s i = modeOf i (s.pc p) := by
  simp [mode, lock]

theorem modeOf_other (h : about c ≠ some i) : modeOf i c = .held := by
  cases c <;> simp_all [about, modeOf]

theorem frees_about (h : c.frees = some i) : about c = some i := by
  cases c <;> simp_all [about, Pc.frees]

theorem puts_about (h : c.puts = some i) : about c = some i := by
  cases c <;> simp_all [about, Pc.puts]

theorem puts_of_frees (h : c.frees = some i) : c.puts = some i := by
  cases c <;> simp_all [Pc.frees, Pc.puts]

theorem locks_about (h : locks c = some i) : about c = some i := by
  cases c <;> simp_all [about, locks]

/-- An inode that is free on disk may change there. -/
theorem Fits.free {x : Inode n} {d d' : Dinode} {b : Bool} {m : Mode} (fits : Fits x d b m)
    (free : d.type = 0) : Fits x d' b m := by
  cases m with
  | settled => exact fun valid => absurd free (fits valid).2
  | read =>
    refine ⟨fits.1, fun typed => ?_⟩
    rw [fits.2 typed] at typed
    exact absurd free typed
  | held => exact absurd (fits.2.2.1.symm.trans free) fits.2.1
  | freeing => exact absurd free fits.2.2.1
  | freed => trivial

theorem puts_le (h : ∀ q, (t.pc q).puts = some i → (s.pc q).puts = some i) :
    t.puts i ≤ s.puts i := by
  refine Finset.sum_le_sum fun q _ => ?_
  by_cases puts : (t.pc q).puts = some i
  · rw [if_pos puts, if_pos (h q puts)]
  · rw [if_neg puts]
    exact Nat.zero_le _

theorem needed_le (puts : t.puts i ≤ s.puts i) (used : t.used i → s.used i) :
    t.needed i ≤ s.needed i := by
  unfold State.needed
  by_cases h : t.used i
  · rw [if_pos h, if_pos (used h)]
    omega
  · rw [if_neg h]
    omega

theorem needed_le_succ (puts : t.puts i ≤ s.puts i) : t.needed i ≤ s.puts i + 1 := by
  unfold State.needed
  split <;> omega

theorem one_le_puts (h : (s.pc p).puts = some i) : 1 ≤ s.puts i := by
  have le := Tallies.le_sum (fun c : Pc => if c.puts = some i then 1 else 0) s.pc p
  simpa only [State.puts, h, if_true] using le

theorem puts_move (pc : t.pc = update s.pc p c) :
    t.puts i + (if (s.pc p).puts = some i then 1 else 0) =
      s.puts i + if c.puts = some i then 1 else 0 := by
  simp only [State.puts, pc]
  exact Tallies.sum_update (fun c : Pc => if c.puts = some i then 1 else 0) s.pc p c

/-- An entry that is used or put has a reference. -/
theorem EntryInv.ref_pos (e : EntryInv s i) (h : s.used i) : 0 < (s.itable i).ref := by
  have counted := e.counted
  rw [State.needed, if_pos h] at counted
  omega

theorem EntryInv.lock_pos (e : EntryInv s i) (lock : (s.itable i).lock = some p) :
    0 < (s.itable i).ref := by
  by_cases frees : (s.pc p).frees = some i
  · have one := one_le_puts (puts_of_frees frees)
    have counted := e.counted
    unfold State.needed at counted
    omega
  · exact e.ref_pos ⟨p, .inr ⟨lock, frees⟩⟩

/-- What `p` does leaves the entries alone that are not its own. -/
structure Touches (p : Fin n) (own : Ip → Prop) (s t : State n) : Prop where
  table : ∀ i, ¬ own i → t.itable i = s.itable i
  pc : ∀ q, q ≠ p → t.pc q = s.pc q
  before : ∀ i, about (s.pc p) = some i → own i
  after : ∀ i, about (t.pc p) = some i → own i
  disk : ∀ i, ¬ own i → 0 < (s.itable i).ref →
    t.disk (s.itable i).key = s.disk (s.itable i).key ∨ (s.disk (s.itable i).key).type = 0
  dirty : ∀ i, ¬ own i → t.dirty i = s.dirty i
  calm : ∀ i, ¬ own i → t.calm i = s.calm i

namespace Touches

variable {own : Ip → Prop}

theorem about_iff (h : Touches p own s t) (other : ¬ own i) (q : Fin n) :
    t.pc q = s.pc q ∨ about (t.pc q) ≠ some i ∧ about (s.pc q) ≠ some i := by
  rcases eq_or_ne q p with rfl | away
  · exact .inr ⟨fun here => other (h.after i here), fun here => other (h.before i here)⟩
  · exact .inl (h.pc q away)

theorem modeOf_eq (h : Touches p own s t) (other : ¬ own i) (q : Fin n) :
    modeOf i (t.pc q) = modeOf i (s.pc q) := by
  rcases h.about_iff other q with same | ⟨after, before⟩
  · rw [same]
  · rw [modeOf_other after, modeOf_other before]

theorem mode_eq (h : Touches p own s t) (other : ¬ own i) : mode t i = mode s i := by
  unfold mode
  rw [h.table i other]
  cases (s.itable i).lock with
  | none => rfl
  | some q => exact h.modeOf_eq other q

theorem frees_iff (h : Touches p own s t) (other : ¬ own i) (q : Fin n) :
    (t.pc q).frees = some i ↔ (s.pc q).frees = some i := by
  rcases h.about_iff other q with same | ⟨after, before⟩
  · rw [same]
  · exact ⟨fun puts => absurd (frees_about puts) after,
      fun puts => absurd (frees_about puts) before⟩

theorem puts_imp (h : Touches p own s t) (other : ¬ own i) (q : Fin n)
    (puts : (t.pc q).puts = some i) : (s.pc q).puts = some i := by
  rcases h.about_iff other q with same | ⟨after, -⟩
  · rwa [← same]
  · exact absurd (puts_about puts) after

theorem used_imp (h : Touches p own s t) (other : ¬ own i) (used : t.used i) : s.used i := by
  obtain ⟨q, waits | ⟨lock, stays⟩⟩ := used
  · refine ⟨q, .inl ?_⟩
    rcases h.about_iff other q with same | ⟨after, -⟩
    · rw [← same]
      exact waits
    · exact absurd (by rw [waits]; rfl) after
  · rw [h.table i other] at lock
    exact ⟨q, .inr ⟨lock, fun puts => stays ((h.frees_iff other q).mpr puts)⟩⟩

theorem entry (h : Touches p own s t) (other : ¬ own i) (e : EntryInv s i) : EntryInv t i where
  counted := by
    rw [h.table i other]
    exact (needed_le (puts_le (h.puts_imp other)) (h.used_imp other)).trans e.counted
  locked := by
    intro q has
    rw [h.table i other]
    rcases h.about_iff other q with same | ⟨after, -⟩
    · rw [same] at has
      exact e.locked q has
    · exact absurd (locks_about has) after
  clean := by
    rw [h.dirty i other, h.mode_eq other]
    exact e.clean
  fits := by
    rw [h.table i other, h.dirty i other, h.mode_eq other]
    intro pos
    rcases h.disk i other pos with same | free
    · rw [same]
      exact e.fits pos
    · exact (e.fits pos).free free
  calm := by
    rw [h.table i other, h.calm i other, h.mode_eq other]
    exact e.calm

end Touches

/-- A step that touches no entry. -/
theorem Inv.away (inv : Inv s) (h : Touches p (fun _ => False) s t) : Inv t where
  unique := by
    intro i j
    rw [h.table i id, h.table j id]
    exact inv.unique i j
  entry := fun i => h.entry id (inv.entry i)

/-- A step that touches one entry. -/
theorem Inv.touch (inv : Inv s) (h : Touches p (· = ip) s t)
    (apart : 0 < (t.itable ip).ref → ∀ i, i ≠ ip → 0 < (s.itable i).ref →
      (s.itable i).key ≠ (t.itable ip).key)
    (e : EntryInv t ip) : Inv t where
  unique := by
    intro i j hi hj same
    by_cases first : i = ip
    · subst first
      by_contra other
      have away : j ≠ i := fun back => other back.symm
      rw [h.table j away] at hj same
      exact apart hi j away hj same.symm
    · by_cases second : j = ip
      · subst second
        rw [h.table i first] at hi same
        exact absurd same (apart hj i first hi)
      · rw [h.table i first] at hi same
        rw [h.table j second] at hj same
        exact inv.unique i j hi hj same
  entry := by
    intro i
    by_cases same : i = ip
    · exact same ▸ e
    · exact h.entry same (inv.entry i)

theorem Inv.apart (inv : Inv s) (key : (t.itable i).key = (s.itable i).key)
    (alive : 0 < (t.itable i).ref → 0 < (s.itable i).ref) (pos : 0 < (t.itable i).ref) (j : Ip)
    (other : j ≠ i) (pos' : 0 < (s.itable j).ref) : (s.itable j).key ≠ (t.itable i).key := by
  rw [key]
  exact fun same => other (inv.unique j i pos' (alive pos) same)

section Steps

variable {x : Inode n}

theorem touches (table : t.itable = update s.itable ip x) (pc : t.pc = update s.pc p c)
    (before : about (s.pc p) = none ∨ about (s.pc p) = some ip)
    (after : about c = none ∨ about c = some ip)
    (disk : ∀ i, i ≠ ip → 0 < (s.itable i).ref →
      t.disk (s.itable i).key = s.disk (s.itable i).key)
    (dirty : ∀ i, i ≠ ip → t.dirty i = s.dirty i) (calm : ∀ i, i ≠ ip → t.calm i = s.calm i) :
    Touches p (· = ip) s t where
  table := fun i other => by rw [table, update_of_ne other]
  pc := fun q other => by rw [pc, update_of_ne other]
  before := by
    intro i here
    rcases before with none_ | some_
    · rw [none_] at here
      cases here
    · rw [some_] at here
      exact (Option.some.inj here).symm
  after := by
    intro i here
    rw [pc, update_self] at here
    rcases after with none_ | some_
    · rw [none_] at here
      cases here
    · rw [some_] at here
      exact (Option.some.inj here).symm
  disk := fun i other pos => .inl (disk i other pos)
  dirty := dirty
  calm := calm

/-- The holder of the lock stays, and the place of `p` says the same of the copy. -/
theorem mode_same (lock : (t.itable i).lock = (s.itable i).lock) (pc : t.pc = update s.pc p c)
    (place : modeOf i c = modeOf i (s.pc p)) : mode t i = mode s i := by
  unfold mode
  rw [lock, pc]
  cases (s.itable i).lock with
  | none => rfl
  | some q =>
    rcases eq_or_ne q p with rfl | other
    · simp only [update_self]
      exact place
    · simp only [update_of_ne other]

theorem locked_same (e : EntryInv s i) (lock : (t.itable i).lock = (s.itable i).lock)
    (pc : t.pc = update s.pc p c) (place : locks c = some i → locks (s.pc p) = some i) (q : Fin n)
    (has : locks (t.pc q) = some i) : (t.itable i).lock = some q := by
  rw [lock]
  rcases eq_or_ne q p with rfl | other
  · rw [pc, update_self] at has
    exact e.locked q (place has)
  · rw [pc, update_of_ne other] at has
    exact e.locked q has

/-- Only the process that has the lock is in a place where it needs it. -/
theorem locked_only (e : EntryInv s i) (lock : (s.itable i).lock = none ∨
    (s.itable i).lock = some p) (pc : t.pc = update s.pc p c)
    (place : locks c = some i → (t.itable i).lock = some p) (q : Fin n)
    (has : locks (t.pc q) = some i) : (t.itable i).lock = some q := by
  rcases eq_or_ne q p with rfl | other
  · rw [pc, update_self] at has
    exact place has
  · rw [pc, update_of_ne other] at has
    have held := e.locked q has
    rcases lock with free | mine
    · rw [free] at held
      cases held
    · rw [mine] at held
      exact absurd (Option.some.inj held).symm other

theorem puts_same (pc : t.pc = update s.pc p c)
    (place : c.puts = some i → (s.pc p).puts = some i) : t.puts i ≤ s.puts i := by
  refine puts_le fun q puts => ?_
  rcases eq_or_ne q p with rfl | other
  · rw [pc, update_self] at puts
    exact place puts
  · rwa [pc, update_of_ne other] at puts

/-- What `used` says of another process than `p` holds before the step as well. -/
theorem used_same (pc : t.pc = update s.pc p c)
    (lock : ∀ q, q ≠ p → (t.itable i).lock = some q → (s.itable i).lock = some q)
    (mine : c = .locking i ∨ (t.itable i).lock = some p ∧ c.frees ≠ some i → s.used i)
    (used : t.used i) : s.used i := by
  obtain ⟨q, use⟩ := used
  rcases eq_or_ne q p with rfl | other
  · rw [pc, update_self] at use
    exact mine use
  · rw [pc, update_of_ne other] at use
    rcases use with waits | ⟨has, stays⟩
    · exact ⟨q, .inl waits⟩
    · exact ⟨q, .inr ⟨lock q other has, stays⟩⟩

theorem inv_ilock (inv : Inv s) (idle : s.pc p = .idle) (spare : s.puts ip < (s.itable ip).ref) :
    Inv (s.goTo p (.locking ip)) := by
  have e := inv.entry ip
  have same : mode (s.goTo p (.locking ip)) ip = mode s ip :=
    mode_same rfl rfl (by rw [idle]; rfl)
  refine inv.touch (touches (update_eq_self ..).symm rfl (.inl (by rw [idle]; rfl)) (.inr rfl)
    (fun _ _ _ => rfl) (fun _ _ => rfl) fun _ _ => rfl) (inv.apart rfl id) ?_
  constructor
  · exact (needed_le_succ (puts_same (c := .locking ip) rfl nofun)).trans spare
  · exact locked_same e rfl rfl nofun
  · rw [same]
    exact e.clean
  · rw [same]
    exact e.fits
  · rw [same]
    exact e.calm

theorem inv_lock (inv : Inv s) (place : s.pc p = .locking ip) (free : (s.itable ip).lock = none) :
    Inv ((s.setInode ip { s.itable ip with lock := some p }).goTo p (.loading ip)) := by
  have e := inv.entry ip
  set t := (s.setInode ip { s.itable ip with lock := some p }).goTo p (.loading ip) with def_t
  have at_ip : t.itable ip = { s.itable ip with lock := some p } := update_self ..
  have pc : t.pc = update s.pc p (.loading ip) := rfl
  have settled := mode_none free
  have now : mode t ip = .settled := by
    rw [mode_some (p := p) (by rw [at_ip]), pc, update_self]
    simp [modeOf]
  refine inv.touch (touches rfl rfl (.inr (by rw [place]; rfl)) (.inr rfl)
    (fun _ _ _ => rfl) (fun _ _ => rfl) fun _ _ => rfl)
    (inv.apart (by rw [at_ip]; rfl) (by rw [at_ip]; exact id)) ?_
  constructor
  · rw [at_ip]
    refine (needed_le (puts_same pc nofun) (used_same pc (fun q other lock => ?_) fun _ =>
      ⟨p, .inl place⟩)).trans e.counted
    rw [at_ip] at lock
    exact absurd (Option.some.inj lock).symm other
  · exact locked_only e (.inl free) pc fun _ => by rw [at_ip]
  · intro dirty
    rw [e.clean dirty] at settled
    cases settled
  · intro pos
    rw [at_ip] at pos ⊢
    rw [now]
    have fits := e.fits pos
    rw [settled] at fits
    exact fits
  · rw [now]
    intro freeing
    cases freeing

/-- An entry whose mode is not one of freeing satisfies what is said of `calm`. -/
theorem calm_of_mode {m : Mode} (now : mode t i = m) (other : m ≠ .freeing)
    (freeing : mode t i = .freeing) : t.calm i = true → (t.itable i).ref = 1 :=
  absurd (now.symm.trans freeing) other

/-- A step of the process that has the lock, or takes it, and keeps the references. -/
theorem inv_work (inv : Inv s) (table : t.itable = update s.itable i x)
    (pc : t.pc = update s.pc p c) (key : x.key = (s.itable i).key)
    (ref : x.ref = (s.itable i).ref)
    (before : about (s.pc p) = none ∨ about (s.pc p) = some i)
    (after : about c = none ∨ about c = some i)
    (lock : (s.itable i).lock = some p)
    (disk : ∀ k, k ≠ (s.itable i).key → t.disk k = s.disk k)
    (dirty : ∀ j, j ≠ i → t.dirty j = s.dirty j) (calm : ∀ j, j ≠ i → t.calm j = s.calm j)
    (keeps : x.lock = some p ∨ x.lock = none ∧ locks c ≠ some i)
    (puts : c.puts = some i → (s.pc p).puts = some i)
    (uses : c = .locking i ∨ x.lock = some p ∧ c.frees ≠ some i → s.used i)
    (clean : t.dirty i = true → mode t i = .held)
    (fits : Fits x (t.disk (s.itable i).key) (t.dirty i) (mode t i))
    (quiet : mode t i = .freeing → mode s i = .freeing ∧ t.calm i = s.calm i) : Inv t := by
  have e := inv.entry i
  have pos := e.lock_pos lock
  have at_ip : t.itable i = x := by rw [table, update_self]
  have apart := inv.apart (t := t) (i := i) (by rw [at_ip, key]) (fun _ => pos)
  refine inv.touch (touches table pc before after (fun j other pos' => ?_) dirty calm) apart ?_
  · exact disk _ fun same => other (inv.unique j i pos' pos same)
  constructor
  · rw [at_ip, ref]
    refine (needed_le (puts_same pc puts) (used_same pc (fun q other has => ?_) ?_)).trans e.counted
    · rw [at_ip] at has
      rcases keeps with mine | ⟨none_, -⟩
      · rw [mine] at has
        exact absurd (Option.some.inj has).symm other
      · rw [none_] at has
        cases has
    · rw [at_ip]
      exact uses
  · refine locked_only e (.inr lock) pc fun has => ?_
    rw [at_ip]
    rcases keeps with mine | ⟨-, stays⟩
    · exact mine
    · exact absurd has stays
  · exact clean
  · intro _
    rw [at_ip, key]
    exact fits
  · intro freeing here
    obtain ⟨was, same⟩ := quiet freeing
    rw [at_ip, ref]
    exact e.calm was (same ▸ here)

theorem inv_load (inv : Inv s) (place : s.pc p = .loading ip) : Inv (load s p ip) := by
  have e := inv.entry ip
  have lock := e.locked p (by rw [place]; rfl)
  have settled : mode s ip = .settled := by
    rw [mode_some lock, place]
    simp [modeOf]
  have uses : s.used ip := ⟨p, .inr ⟨lock, by rw [place]; nofun⟩⟩
  have fits := e.fits (e.lock_pos lock)
  rw [settled] at fits
  have not_dirty : s.dirty ip = false := by
    by_contra dirty
    have held := e.clean (by simpa using dirty)
    rw [settled] at held
    cases held
  unfold load
  split
  next valid =>
    obtain ⟨copy, typed⟩ := fits valid
    have now : mode (s.goTo p .idle) ip = .held := by
      rw [mode_some (s := s.goTo p .idle) (p := p) lock]
      simp [State.goTo, modeOf]
    refine inv_work inv (i := ip) (update_eq_self ..).symm rfl rfl rfl (.inr (by rw [place]; rfl))
      (.inl rfl) lock (fun _ _ => rfl) (fun _ _ => rfl) (fun _ _ => rfl) (.inl lock) nofun
      (fun _ => uses) (fun _ => now) ?_ fun freeing => ?_
    · rw [now]
      exact ⟨valid, (congrArg Dinode.type copy).trans_ne typed, congrArg Dinode.type copy.symm,
        fun _ => copy⟩
    · rw [now] at freeing
      cases freeing
  next invalid =>
    have now : mode ((s.setInode ip { s.itable ip with
        copy := s.disk (s.itable ip).key }).goTo p (.loaded ip)) ip = .read := by
      rw [mode_some (p := p) (by simpa [State.goTo, State.setInode] using lock)]
      simp [State.goTo, modeOf]
    refine inv_work inv (i := ip) rfl rfl rfl rfl (.inr (by rw [place]; rfl))
      (.inr rfl) lock (fun _ _ => rfl) (fun _ _ => rfl) (fun _ _ => rfl) (.inl lock) nofun
      (fun _ => uses) (fun dirty => ?_) ?_ fun freeing => ?_
    · have dirty : s.dirty ip = true := dirty
      rw [not_dirty] at dirty
      cases dirty
    · rw [now]
      exact ⟨by simpa using invalid, fun _ => rfl⟩
    · rw [now] at freeing
      cases freeing

theorem inv_markValid (inv : Inv s) (place : s.pc p = .loaded ip) (h : markValid s p ip = .ok t) :
    Inv t := by
  have e := inv.entry ip
  have lock := e.locked p (by rw [place]; rfl)
  have read : mode s ip = .read := by
    rw [mode_some lock, place]
    simp [modeOf]
  have fits := e.fits (e.lock_pos lock)
  rw [read] at fits
  unfold markValid at h
  dsimp only at h
  split at h
  next => cases h
  next typed =>
    cases h
    have typed : (s.itable ip).copy.type ≠ 0 := by simpa [State.setInode] using typed
    have now : mode ((s.setInode ip { s.itable ip with valid := true }).goTo p .idle) ip =
        .held := by
      rw [mode_some (p := p) (by simpa [State.goTo, State.setInode] using lock)]
      simp [State.goTo, modeOf]
    refine inv_work inv (i := ip) rfl rfl rfl rfl (.inr (by rw [place]; rfl))
      (.inl rfl) lock (fun _ _ => rfl) (fun _ _ => rfl) (fun _ _ => rfl) (.inl lock) nofun
      (fun _ => ⟨p, .inr ⟨lock, by rw [place]; nofun⟩⟩) (fun _ => now) ?_ fun freeing => ?_
    · rw [now]
      have copy := fits.2 typed
      exact ⟨rfl, typed, congrArg Dinode.type copy.symm, fun _ => copy⟩
    · rw [now] at freeing
      cases freeing

/-- A process that is not in a call holds what it has locked. -/
theorem mode_idle (idle : s.pc p = .idle) (lock : (s.itable ip).lock = some p) :
    mode s ip = .held := by
  rw [mode_some lock, idle]
  rfl

theorem used_idle (idle : s.pc p = .idle) (lock : (s.itable ip).lock = some p) : s.used ip :=
  ⟨p, .inr ⟨lock, by rw [idle]; nofun⟩⟩

theorem inv_change (inv : Inv s) (idle : s.pc p = .idle) (lock : (s.itable ip).lock = some p)
    {d : Dinode} (type : d.type = (s.itable ip).copy.type) :
    Inv { s.setInode ip { s.itable ip with copy := d } with dirty := update s.dirty ip true } := by
  have e := inv.entry ip
  have fits := e.fits (e.lock_pos lock)
  rw [mode_idle idle lock] at fits
  obtain ⟨valid, typed, same, -⟩ := fits
  have now : mode { s.setInode ip { s.itable ip with copy := d } with
      dirty := update s.dirty ip true } ip = .held :=
    mode_idle (p := p) idle (by simpa [State.setInode] using lock)
  refine inv_work inv (i := ip) (c := .idle) rfl (by rw [← idle]; exact (update_eq_self ..).symm)
    rfl rfl (.inl (by rw [idle]; rfl)) (.inl rfl) lock (fun _ _ => rfl)
    (fun i other => update_of_ne other ..) (fun _ _ => rfl) (.inl lock) nofun
    (fun _ => used_idle idle lock) (fun _ => now) ?_ fun freeing => ?_
  · rw [now]
    refine ⟨valid, type ▸ typed, same.trans type.symm, fun clean => ?_⟩
    simp only [update_self] at clean
    cases clean
  · rw [now] at freeing
    cases freeing

theorem inv_iupdate (inv : Inv s) (idle : s.pc p = .idle) (lock : (s.itable ip).lock = some p) :
    Inv { iupdate s ip with dirty := update s.dirty ip false } := by
  have e := inv.entry ip
  have fits := e.fits (e.lock_pos lock)
  rw [mode_idle idle lock] at fits
  obtain ⟨valid, typed, same, -⟩ := fits
  have now : mode { iupdate s ip with dirty := update s.dirty ip false } ip = .held :=
    mode_idle (p := p) idle lock
  refine inv_work inv (i := ip) (c := .idle) (update_eq_self ..).symm
    (by rw [← idle]; exact (update_eq_self ..).symm) rfl rfl (.inl (by rw [idle]; rfl)) (.inl rfl)
    lock (fun k other => update_of_ne other ..) (fun i other => update_of_ne other ..)
    (fun _ _ => rfl) (.inl lock) nofun (fun _ => used_idle idle lock) (fun _ => now) ?_
    fun freeing => ?_
  · rw [now]
    have disk : update s.disk (s.itable ip).key (s.itable ip).copy (s.itable ip).key =
        (s.itable ip).copy := update_self ..
    exact ⟨valid, typed, congrArg Dinode.type disk, fun _ => disk.symm⟩
  · rw [now] at freeing
    cases freeing

theorem inv_iunlock (inv : Inv s) (idle : s.pc p = .idle) (clean : s.dirty ip = false)
    (h : iunlock s p ip = .ok t) : Inv t := by
  unfold iunlock at h
  split at h
  next => cases h
  next ok =>
    cases h
    have lock : (s.itable ip).lock = some p := by
      by_contra other
      exact ok (.inl other)
    have e := inv.entry ip
    have fits := e.fits (e.lock_pos lock)
    rw [mode_idle idle lock, clean] at fits
    obtain ⟨-, typed, same, copy⟩ := fits
    have now : mode (s.setInode ip { s.itable ip with lock := none }) ip = .settled :=
      mode_none (by simp [State.setInode])
    refine inv_work inv (i := ip) (c := .idle) rfl (by rw [← idle]; exact (update_eq_self ..).symm)
      rfl rfl (.inl (by rw [idle]; rfl)) (.inl rfl) lock (fun _ _ => rfl) (fun _ _ => rfl)
      (fun _ _ => rfl) (.inr ⟨rfl, nofun⟩) nofun (fun _ => used_idle idle lock) (fun dirty => ?_) ?_
      fun freeing => ?_
    · have dirty : s.dirty ip = true := dirty
      rw [clean] at dirty
      cases dirty
    · rw [now]
      exact fun _ => ⟨copy rfl, same ▸ typed⟩
    · rw [now] at freeing
      cases freeing

/-- The process that frees the inode. -/
theorem freeing_holder (freeing : mode s i = .freeing) :
    ∃ q, (s.itable i).lock = some q ∧ (s.pc q = .truncating i ∨ s.pc q = .clearing i) := by
  unfold mode at freeing
  cases lock : (s.itable i).lock with
  | none => simp [lock] at freeing
  | some q =>
    simp only [lock] at freeing
    refine ⟨q, rfl, ?_⟩
    cases place : s.pc q <;> simp only [place, modeOf] at freeing <;> first
      | cases freeing
      | split at freeing <;> simp_all

theorem freeing_puts (freeing : mode s i = .freeing) : ∃ q, (s.itable i).lock = some q ∧
    (s.pc q).puts = some i := by
  obtain ⟨q, lock, place | place⟩ := freeing_holder freeing <;> exact ⟨q, lock, by rw [place]; rfl⟩

theorem mode_of_freeing (e : EntryInv s ip)
    (place : s.pc p = .truncating ip ∨ s.pc p = .clearing ip) :
    (s.itable ip).lock = some p ∧ mode s ip = .freeing := by
  have lock : (s.itable ip).lock = some p := by
    rcases place with place | place <;> exact e.locked p (by rw [place]; rfl)
  refine ⟨lock, ?_⟩
  rw [mode_some lock]
  rcases place with place | place <;> simp [place, modeOf]

theorem iupdate_setInode :
    iupdate (s.setInode ip x) ip = { s.setInode ip x with disk := update s.disk x.key x.copy } := by
  simp [iupdate, State.setInode]

/-- A step that changes the inode that is freed, in memory and on disk. -/
theorem inv_freeing {d : Dinode} (inv : Inv s)
    (place : s.pc p = .truncating ip ∨ s.pc p = .clearing ip)
    (table : t.itable = update s.itable ip { s.itable ip with copy := d })
    (pc : t.pc = update s.pc p c) (disk : t.disk = update s.disk (s.itable ip).key d)
    (dirty : t.dirty = s.dirty) (calm : t.calm = s.calm)
    (next : c = .clearing ip ∧ d.type = (s.itable ip).copy.type ∧
        d.nlink = (s.itable ip).copy.nlink ∨
      c = .releasing ip) : Inv t := by
  have e := inv.entry ip
  obtain ⟨lock, freeing⟩ := mode_of_freeing e place
  have fits := e.fits (e.lock_pos lock)
  rw [freeing] at fits
  obtain ⟨valid, copy, typed, unlinked⟩ := fits
  have at_ip : t.itable ip = { s.itable ip with copy := d } := by rw [table, update_self]
  have now : mode t ip = modeOf ip c := by
    rw [mode_some (p := p) (by rw [at_ip]; exact lock), pc, update_self]
  have clean : ¬ t.dirty ip = true := by
    intro dirty'
    rw [dirty] at dirty'
    have held := e.clean dirty'
    rw [freeing] at held
    cases held
  refine inv_work inv (i := ip) table pc rfl rfl (.inr ?_) (.inr ?_) lock
    (fun k other => by rw [disk, update_of_ne other]) (fun _ _ => by rw [dirty])
    (fun _ _ => by rw [calm]) (.inl lock) (fun _ => ?_) (fun uses => ?_)
    (fun dirty => absurd dirty clean) ?_ fun _ => ⟨freeing, by rw [calm]⟩
  · rcases place with place | place <;> rw [place] <;> rfl
  · rcases next with ⟨rfl, -⟩ | rfl <;> rfl
  · rcases place with place | place <;> rw [place] <;> rfl
  · rcases next with ⟨rfl, -⟩ | rfl <;> simp [Pc.frees] at uses
  · rw [now, disk, update_self]
    rcases next with ⟨rfl, type, nlink⟩ | rfl
    · simp only [modeOf, if_true]
      have same : d.type = (s.disk (s.itable ip).key).type := type.trans (congrArg Dinode.type copy)
      have links : d.nlink = (s.disk (s.itable ip).key).nlink :=
        nlink.trans (congrArg Dinode.nlink copy)
      exact ⟨valid, rfl, same.trans_ne typed, links.trans unlinked⟩
    · simp only [modeOf, if_true]
      trivial

theorem inv_itrunc (inv : Inv s) (place : s.pc p = .truncating ip) :
    Inv ((itrunc s ip).goTo p (.clearing ip)) := by
  unfold itrunc
  dsimp only
  rw [iupdate_setInode]
  exact inv_freeing inv (.inl place) rfl rfl rfl rfl rfl (.inl ⟨rfl, rfl, rfl⟩)

theorem inv_clear (inv : Inv s) (place : s.pc p = .clearing ip) :
    Inv ((clear s ip).goTo p (.releasing ip)) := by
  unfold clear
  dsimp only
  rw [iupdate_setInode]
  exact inv_freeing inv (.inr place) rfl rfl rfl rfl rfl (.inr rfl)

theorem inv_release (inv : Inv s) (place : s.pc p = .releasing ip) :
    Inv ((s.setInode ip { s.itable ip with valid := false, lock := none }).goTo p
      (.dropping ip)) := by
  have e := inv.entry ip
  have lock := e.locked p (by rw [place]; rfl)
  have was : mode s ip = .freed := by
    rw [mode_some lock, place]
    simp [modeOf]
  have now := mode_none (s := (s.setInode ip { s.itable ip with
    valid := false, lock := none }).goTo p (.dropping ip)) (i := ip)
    (by simp [State.goTo, State.setInode])
  refine inv_work inv (i := ip) rfl rfl rfl rfl (.inr (by rw [place]; rfl)) (.inr rfl) lock
    (fun _ _ => rfl) (fun _ _ => rfl) (fun _ _ => rfl) (.inr ⟨rfl, nofun⟩)
    (fun _ => by rw [place]; rfl) (fun uses => ?_) (fun dirty => ?_) ?_ fun freeing => ?_
  · simp at uses
  · have held := e.clean dirty
    rw [was] at held
    cases held
  · rw [now]
    intro valid
    cases valid
  · rw [now] at freeing
    cases freeing

theorem Fits.congr {x y : Inode n} {d : Dinode} {b : Bool} {m : Mode} (fits : Fits x d b m)
    (valid : y.valid = x.valid) (copy : y.copy = x.copy) : Fits y d b m := by
  cases m with
  | freed => trivial
  | _ => simpa only [Fits, valid, copy] using fits

/-- A step that counts references. -/
theorem inv_count {r : Nat} (inv : Inv s)
    (table : t.itable = update s.itable ip { s.itable ip with ref := r })
    (pc : t.pc = update s.pc p c)
    (before : about (s.pc p) = none ∨ about (s.pc p) = some ip)
    (after : about c = none ∨ about c = some ip) (place : modeOf ip c = modeOf ip (s.pc p))
    (place' : locks c = some ip → locks (s.pc p) = some ip) (disk : t.disk = s.disk)
    (dirty : t.dirty = s.dirty) (calm : ∀ i, i ≠ ip → t.calm i = s.calm i)
    (alive : 0 < r → 0 < (s.itable ip).ref) (counted : t.needed ip ≤ r)
    (quiet : mode s ip = .freeing → t.calm ip = true → r = 1) : Inv t := by
  have e := inv.entry ip
  have at_ip : t.itable ip = { s.itable ip with ref := r } := by rw [table, update_self]
  have same : mode t ip = mode s ip := mode_same (by rw [at_ip]) pc place
  refine inv.touch (touches table pc before after (fun _ _ _ => by rw [disk])
    (fun _ _ => by rw [dirty]) calm)
    (inv.apart (by rw [at_ip]; rfl) (by rw [at_ip]; exact alive)) ?_
  constructor
  · rw [at_ip]
    exact counted
  · exact locked_same e (by rw [at_ip]) pc place'
  · rw [same, dirty]
    exact e.clean
  · intro pos
    rw [at_ip] at pos ⊢
    rw [same, dirty, disk]
    exact (e.fits (alive pos)).congr rfl rfl
  · rw [same, at_ip]
    exact quiet

theorem freeing_one (freeing : mode s i = .freeing) : 1 ≤ s.puts i := by
  obtain ⟨q, -, puts⟩ := freeing_puts freeing
  exact one_le_puts puts

theorem puts_le_needed : s.puts i ≤ s.needed i := Nat.le_add_right ..

theorem inv_idup (inv : Inv s) (idle : s.pc p = .idle) (spare : s.puts ip < (s.itable ip).ref) :
    Inv (idup s ip) := by
  have e := inv.entry ip
  have pc : (idup s ip).pc = update s.pc p .idle := by
    rw [← idle]
    exact (update_eq_self ..).symm
  refine inv_count inv rfl pc (.inl (by rw [idle]; rfl)) (.inl rfl) (by rw [idle]) nofun rfl rfl
    (fun _ _ => rfl) (fun _ => by omega) ?_ fun freeing calm => ?_
  · refine (needed_le_succ (i := ip) (puts_same pc nofun)).trans ?_
    omega
  · have one := e.calm freeing calm
    have puts := freeing_one freeing
    omega

theorem inv_drop (inv : Inv s) (place : s.pc p = .dropping ip) :
    Inv ((s.setInode ip { s.itable ip with ref := (s.itable ip).ref - 1 }).goTo p .idle) := by
  have e := inv.entry ip
  have counted := e.counted
  have mine : (s.pc p).puts = some ip := by
    rw [place]
    rfl
  generalize ht : (s.setInode ip { s.itable ip with ref := (s.itable ip).ref - 1 }).goTo p .idle = t
  have pc : t.pc = update s.pc p .idle := by rw [← ht]; rfl
  have table : t.itable = update s.itable ip { s.itable ip with ref := (s.itable ip).ref - 1 } := by
    rw [← ht]
    rfl
  have puts := puts_move (i := ip) pc
  rw [if_pos mine, if_neg nofun] at puts
  have used : t.used ip → s.used ip := by
    refine used_same pc (fun q _ has => ?_) fun use => ?_
    · simpa [table] using has
    · rcases use with wrong | ⟨lock, -⟩
      · cases wrong
      · rw [table, update_self] at lock
        exact ⟨p, .inr ⟨lock, by rw [place]; nofun⟩⟩
  have fewer : t.needed ip + 1 ≤ s.needed ip := by
    unfold State.needed
    by_cases h : t.used ip
    · rw [if_pos h, if_pos (used h)]
      omega
    · rw [if_neg h]
      omega
  refine inv_count inv table pc (.inr (by rw [place]; rfl)) (.inl rfl) (by rw [place]; rfl) nofun
    (by rw [← ht]; rfl) (by rw [← ht]; rfl) (fun _ _ => by rw [← ht]; rfl) (fun _ => by omega)
    (by omega) fun freeing calm => ?_
  -- another process that frees the inode would put a second reference
  have calm : s.calm ip = true := by
    rw [← ht] at calm
    exact calm
  have one := e.calm freeing calm
  obtain ⟨q, -, place'⟩ := freeing_holder freeing
  have other : p ≠ q := by
    rintro rfl
    rcases place' with place' | place' <;> rw [place] at place' <;> cases place'
  have second : (s.pc q).puts = some ip := by
    rcases place' with place' | place' <;> rw [place'] <;> rfl
  have two := Tallies.add_le_sum (fun c : Pc => if c.puts = some ip then 1 else 0) s.pc other
  simp only [mine, second, if_true] at two
  have puts_eq : s.puts ip = ∑ q, if (s.pc q).puts = some ip then 1 else 0 := rfl
  have le : s.puts ip ≤ s.needed ip := puts_le_needed
  omega

/-- `iput` of an entry that stays in use, or whose inode has links. -/
theorem inv_less (inv : Inv s) (idle : s.pc p = .idle) (spare : s.needed ip < (s.itable ip).ref) :
    Inv (s.setInode ip { s.itable ip with ref := (s.itable ip).ref - 1 }) := by
  have e := inv.entry ip
  generalize ht : s.setInode ip { s.itable ip with ref := (s.itable ip).ref - 1 } = t
  have pc : t.pc = update s.pc p .idle := by
    rw [← ht, ← idle]
    exact (update_eq_self ..).symm
  have table : t.itable = update s.itable ip { s.itable ip with ref := (s.itable ip).ref - 1 } := by
    rw [← ht]
    rfl
  have needed : t.needed ip ≤ s.needed ip := by
    refine needed_le (puts_same pc nofun) (used_same pc (fun q _ has => ?_) fun use => ?_)
    · simpa [table] using has
    · rcases use with wrong | ⟨lock, -⟩
      · cases wrong
      · rw [table, update_self] at lock
        exact used_idle idle lock
  refine inv_count inv table pc (.inl (by rw [idle]; rfl)) (.inl rfl) (by rw [idle]) nofun
    (by rw [← ht]; rfl) (by rw [← ht]; rfl) (fun _ _ => by rw [← ht]; rfl) (fun _ => by omega)
    (by omega) fun freeing calm => ?_
  have calm : s.calm ip = true := by
    rw [← ht] at calm
    exact calm
  have one := e.calm freeing calm
  have puts := freeing_one freeing
  have le : s.puts ip ≤ s.needed ip := puts_le_needed
  omega

/-- The test in `iput` finds the last reference to an inode without links. -/
theorem inv_free (inv : Inv s) (idle : s.pc p = .idle) (spare : s.needed ip < (s.itable ip).ref)
    (last : (s.itable ip).ref = 1) (valid : (s.itable ip).valid = true)
    (unlinked : (s.itable ip).copy.nlink = 0) (free : (s.itable ip).lock = none) :
    Inv { (s.setInode ip { s.itable ip with lock := some p }).goTo p (.truncating ip) with
      calm := update s.calm ip true } := by
  have e := inv.entry ip
  generalize ht : { (s.setInode ip { s.itable ip with lock := some p }).goTo p (.truncating ip) with
      calm := update s.calm ip true } = t
  have pc : t.pc = update s.pc p (.truncating ip) := by rw [← ht]; rfl
  have at_ip : t.itable ip = { s.itable ip with lock := some p } := by
    rw [← ht]
    exact update_self ..
  have settled := mode_none free
  have now : mode t ip = .freeing := by
    rw [mode_some (p := p) (by rw [at_ip]), pc, update_self]
    simp [modeOf]
  have puts := puts_move (i := ip) pc
  rw [idle, if_neg nofun, if_pos (show (Pc.truncating ip).puts = some ip from rfl)] at puts
  have le : s.puts ip ≤ s.needed ip := puts_le_needed
  have unused : ¬ t.used ip := by
    intro used
    have before : s.used ip := by
      refine used_same pc (fun q other has => ?_) (fun use => ?_) used
      · rw [at_ip] at has
        exact absurd (Option.some.inj has).symm other
      · simp [Pc.frees] at use
    rw [State.needed, if_pos before] at spare
    omega
  have fits := e.fits (by omega)
  rw [settled] at fits
  refine inv.touch (touches (x := { s.itable ip with lock := some p }) (by rw [← ht]; rfl) pc
    (.inl (by rw [idle]; rfl)) (.inr rfl) (fun _ _ _ => by rw [← ht]; rfl)
    (fun _ _ => by rw [← ht]; rfl) (fun i other => by rw [← ht]; exact update_of_ne other ..))
    (inv.apart (by rw [at_ip]; rfl) (by rw [at_ip]; exact id)) ?_
  constructor
  · rw [at_ip, State.needed, if_neg unused]
    simp only
    omega
  · exact locked_only e (.inl free) pc fun _ => by rw [at_ip]
  · intro dirty
    have dirty : s.dirty ip = true := by
      rw [← ht] at dirty
      exact dirty
    have held := e.clean dirty
    rw [settled] at held
    cases held
  · intro _
    rw [now, at_ip]
    have disk : t.disk = s.disk := by rw [← ht]; rfl
    rw [disk]
    obtain ⟨copy, typed⟩ := fits valid
    exact ⟨valid, copy, typed, (congrArg Dinode.nlink copy).symm.trans unlinked⟩
  · intro _ _
    rw [at_ip]
    exact last

theorem inv_found (inv : Inv s) (place : about (s.pc p) = none) (pos : 0 < (s.itable ip).ref) :
    Inv ({ s.setInode ip { s.itable ip with ref := (s.itable ip).ref + 1 } with
      calm := update s.calm ip false }.leave p (some ip)) := by
  have e := inv.entry ip
  have counted := e.counted
  generalize ht : { s.setInode ip { s.itable ip with ref := (s.itable ip).ref + 1 } with
      calm := update s.calm ip false }.leave p (some ip) = t
  have pc : t.pc = update s.pc p .idle := by rw [← ht]; rfl
  have table : t.itable = update s.itable ip { s.itable ip with ref := (s.itable ip).ref + 1 } := by
    rw [← ht]
    rfl
  have puts : t.puts ip ≤ s.puts ip := puts_same pc nofun
  have le : s.puts ip ≤ s.needed ip := puts_le_needed
  refine inv_count inv table pc (.inl place) (.inl rfl) ?_ nofun (by rw [← ht]; rfl)
    (by rw [← ht]; rfl) (fun i other => by rw [← ht]; exact update_of_ne other ..) (fun _ => pos) ?_
    fun _ calm => ?_
  · exact (modeOf_other (by rw [place]; nofun)).symm
  · exact (needed_le_succ puts).trans (by omega)
  · rw [← ht] at calm
    have false_ : update s.calm ip false ip = true := calm
    rw [update_self] at false_
    cases false_

theorem inv_recycled (inv : Inv s) (place : about (s.pc p) = none) (unused : (s.itable ip).ref = 0)
    {dev inum : Nat} (absent : ∀ i, 0 < (s.itable i).ref → (s.itable i).key ≠ (dev, inum)) :
    Inv ((s.setInode ip { s.itable ip with
      dev := dev, inum := inum, ref := 1, valid := false }).leave p (some ip)) := by
  have e := inv.entry ip
  have counted := e.counted
  generalize ht : (s.setInode ip { s.itable ip with
      dev := dev, inum := inum, ref := 1, valid := false }).leave p (some ip) = t
  have pc : t.pc = update s.pc p .idle := by rw [← ht]; rfl
  have at_ip : t.itable ip = { s.itable ip with
      dev := dev, inum := inum, ref := 1, valid := false } := by
    rw [← ht]
    exact update_self ..
  have free : (s.itable ip).lock = none := by
    cases lock : (s.itable ip).lock with
    | none => rfl
    | some q =>
      have pos := e.lock_pos lock
      omega
  have now : mode t ip = .settled := mode_none (by rw [at_ip]; exact free)
  refine inv.touch (touches (x := { s.itable ip with
    dev := dev, inum := inum, ref := 1, valid := false }) (by rw [← ht]; rfl) pc (.inl place)
    (.inl rfl) (fun _ _ _ => by rw [← ht]; rfl) (fun _ _ => by rw [← ht]; rfl)
    (fun _ _ => by rw [← ht]; rfl)) (fun _ i _ pos => by rw [at_ip]; exact absent i pos) ?_
  constructor
  · have needed : t.needed ip ≤ s.needed ip := by
      refine needed_le (puts_same pc nofun) (used_same pc (fun q _ has => ?_) fun use => ?_)
      · rw [at_ip] at has
        exact has
      · rw [at_ip] at use
        rcases use with wrong | ⟨lock, -⟩
        · cases wrong
        · have lock : (s.itable ip).lock = some p := lock
          rw [free] at lock
          cases lock
    rw [at_ip]
    exact (needed.trans counted).trans (by omega)
  · exact locked_same e (by rw [at_ip]) pc nofun
  · intro dirty
    have dirty : s.dirty ip = true := by
      rw [← ht] at dirty
      exact dirty
    have held := e.clean dirty
    rw [mode_none free] at held
    cases held
  · intro _
    rw [now, at_ip]
    intro valid
    cases valid
  · exact calm_of_mode now nofun

theorem inv_igetFor (inv : Inv s) (place : about (s.pc p) = none) {dev inum : Nat}
    (h : igetFor s p dev inum = .ok t) : Inv t := by
  unfold igetFor iget at h
  cases found : (List.finRange NINODE).find? fun ip =>
    0 < (s.itable ip).ref ∧ (s.itable ip).dev = dev ∧ (s.itable ip).inum = inum with
  | some ip =>
    simp only [found] at h
    cases h
    have hit := List.find?_some found
    simp only [decide_eq_true_eq] at hit
    exact inv_found inv place hit.1
  | none =>
    simp only [found] at h
    have absent (i : Ip) (pos : 0 < (s.itable i).ref) : (s.itable i).key ≠ (dev, inum) := by
      intro same
      have miss := List.find?_eq_none.mp found i (List.mem_finRange i)
      simp only [decide_eq_true_eq] at miss
      exact miss ⟨pos, congrArg Prod.fst same, congrArg Prod.snd same⟩
    cases empty : (List.finRange NINODE).find? fun ip => (s.itable ip).ref = 0 with
    | none =>
      simp only [empty] at h
      cases h
    | some ip =>
      simp only [empty] at h
      cases h
      have unused := List.find?_some empty
      simp only [decide_eq_true_eq] at unused
      exact inv_recycled inv place unused absent

/-- A step of `ialloc` on the disk. -/
theorem inv_scan {ninodes dev inum : Nat} {type : BitVec 16} (inv : Inv s)
    (place : s.pc p = .scanning dev inum type) : Inv (scan ninodes s p dev inum type) := by
  unfold scan
  split
  · split
    next free =>
      refine inv.away (p := p) ⟨fun _ _ => rfl, fun q other => update_of_ne other .., ?_, ?_,
        fun i _ _ => ?_, fun _ _ => rfl, fun _ _ => rfl⟩
      · rw [place]
        nofun
      · simp [State.goTo, about]
      · by_cases here : (s.itable i).key = (dev, inum)
        · exact .inr (here ▸ free)
        · exact .inl (update_of_ne here ..)
    next =>
      refine inv.away (p := p) ⟨fun _ _ => rfl, fun q other => update_of_ne other .., ?_, ?_,
        fun _ _ _ => .inl rfl, fun _ _ => rfl, fun _ _ => rfl⟩
      · rw [place]
        nofun
      · simp [State.goTo, about]
  · refine inv.away (p := p) ⟨fun _ _ => rfl, fun q other => update_of_ne other .., ?_, ?_,
      fun _ _ _ => .inl rfl, fun _ _ => rfl, fun _ _ => rfl⟩
    · rw [place]
      nofun
    · simp [State.leave, State.goTo, about]

theorem inv_go {ninodes : Nat} (inv : Inv s) (h : go ninodes s p = .ok t) : Inv t := by
  unfold go at h
  split at h
  next => cases h
  next place =>
    cases h
    exact inv_scan inv place
  next place => exact inv_igetFor inv (by rw [place]; rfl) h
  next place =>
    split at h
    next => cases h
    next free =>
      cases h
      exact inv_lock inv place free
  next place =>
    cases h
    exact inv_load inv place
  next place => exact inv_markValid inv place h
  next place =>
    cases h
    exact inv_itrunc inv place
  next place =>
    cases h
    exact inv_clear inv place
  next place =>
    cases h
    exact inv_release inv place
  next place =>
    cases h
    exact inv_drop inv place

theorem inv_iput (inv : Inv s) (idle : s.pc p = .idle) (spare : s.needed ip < (s.itable ip).ref)
    (h : iput s p ip = .ok t) : Inv t := by
  unfold iput at h
  dsimp only at h
  split at h
  next last =>
    split at h
    next => cases h
    next free =>
      cases h
      exact inv_free inv idle spare last.1 last.2.1 last.2.2 (by simpa using free)
  next =>
    cases h
    exact inv_less inv idle spare

theorem inv_call {e : Event n} (inv : Inv s) (idle : s.pc e.proc = .idle) (h : call s e = .ok t) :
    Inv t := by
  cases e with
  | ialloc p dev type =>
    cases h
    refine inv.away (p := p) ⟨fun _ _ => rfl, fun q other => update_of_ne other .., ?_, ?_,
      fun _ _ _ => .inl rfl, fun _ _ => rfl, fun _ _ => rfl⟩
    · rw [show s.pc p = .idle from idle]
      nofun
    · simp [State.goTo, about]
  | iget p dev inum =>
    exact inv_igetFor inv (by rw [show s.pc p = .idle from idle]; rfl) h
  | idup p ip =>
    simp only [call] at h
    split at h
    next spare =>
      cases h
      exact inv_idup inv idle spare
    next => cases h
  | ilock p ip =>
    simp only [call, ilock] at h
    split at h
    next spare =>
      split at h
      next => cases h
      next =>
        cases h
        exact inv_ilock inv idle spare
    next => cases h
  | change p ip d =>
    simp only [call] at h
    split at h
    next ok =>
      cases h
      exact inv_change inv idle ok.1 ok.2
    next => cases h
  | iupdate p ip =>
    simp only [call] at h
    split at h
    next lock =>
      cases h
      exact inv_iupdate inv idle lock
    next => cases h
  | iunlock p ip =>
    simp only [call] at h
    split at h
    next => cases h
    next clean => exact inv_iunlock inv idle (by simpa using clean) h
  | iput p ip =>
    simp only [call] at h
    split at h
    next spare => exact inv_iput inv idle spare h
    next => cases h
  | go p => cases h

theorem inv_step {ninodes : Nat} {e : Event n} (inv : Inv s) (h : step ninodes s e = .ok t) :
    Inv t := by
  unfold step at h
  split at h
  next => exact inv_go inv h
  next =>
    split at h
    next idle => exact inv_call inv idle h
    next => cases h

theorem inv_boot (disk : Nat × Nat → Dinode) : Inv (boot n disk) where
  unique := fun i j pos => absurd pos (Nat.lt_irrefl 0)
  entry := fun i => {
    counted := by simp [State.needed, State.puts, State.used, boot, Pc.puts]
    locked := nofun
    clean := nofun
    fits := fun pos => absurd pos (Nat.lt_irrefl 0)
    calm := nofun }

theorem igetFor_disk {dev inum : Nat} (h : igetFor s p dev inum = .ok t) : t.disk = s.disk := by
  unfold igetFor iget at h
  split at h
  next => cases h
  next found =>
    cases h
    split at found
    next =>
      cases found
      rfl
    next =>
      split at found
      next => cases found
      next =>
        cases found
        rfl

/-- Who changes an inode on disk, and how. -/
inductive DiskStep (e : Event n) (s t : State n) : Prop
  | same (disk : t.disk = s.disk)
  | marked (k : Nat × Nat) (d : Dinode) (free : (s.disk k).type = 0)
    (disk : t.disk = update s.disk k d)
  | written (k : Nat × Nat) (d : Dinode) (typed : d.type ≠ 0) (disk : t.disk = update s.disk k d)
  | freed (p : Fin n) (i : Ip) (d : Dinode) (call : e = .go p) (place : s.pc p = .clearing i)
    (disk : t.disk = update s.disk (s.itable i).key d)

theorem diskStep_scan {ninodes dev inum : Nat} {type : BitVec 16} {e : Event n} :
    DiskStep e s (scan ninodes s p dev inum type) := by
  unfold scan
  split
  · split
    next free => exact .marked (dev, inum) _ free rfl
    next => exact .same rfl
  · exact .same rfl

theorem diskStep_go {ninodes : Nat} (inv : Inv s) (h : go ninodes s p = .ok t) :
    DiskStep (.go p) s t := by
  unfold go at h
  split at h
  next => cases h
  next =>
    cases h
    exact diskStep_scan
  next => exact .same (igetFor_disk h)
  next =>
    split at h
    next => cases h
    next =>
      cases h
      exact .same rfl
  next =>
    cases h
    unfold load
    split <;> exact .same rfl
  next =>
    unfold markValid at h
    dsimp only at h
    split at h
    next => cases h
    next =>
      cases h
      exact .same rfl
  next ip place =>
    cases h
    have e := inv.entry ip
    obtain ⟨lock, freeing⟩ := mode_of_freeing e (.inl place)
    have fits := e.fits (e.lock_pos lock)
    rw [freeing] at fits
    refine .written (s.itable ip).key { (s.itable ip).copy with size := 0, addrs := fun _ => 0 }
      ((congrArg Dinode.type fits.2.1).trans_ne fits.2.2.1) ?_
    simp only [itrunc, iupdate_setInode]
    rfl
  next ip place =>
    cases h
    refine .freed p ip { (s.itable ip).copy with type := 0 } rfl place ?_
    simp only [clear, iupdate_setInode]
    rfl
  next =>
    cases h
    exact .same rfl
  next =>
    cases h
    exact .same rfl

theorem iput_disk (h : iput s p ip = .ok t) : t.disk = s.disk := by
  unfold iput at h
  dsimp only at h
  split at h
  · split at h
    · cases h
    · cases h
      rfl
  · cases h
    rfl

theorem diskStep_call {e : Event n} (inv : Inv s) (idle : s.pc e.proc = .idle)
    (h : call s e = .ok t) : DiskStep e s t := by
  cases e with
  | ialloc p dev type =>
    cases h
    exact .same rfl
  | iget p dev inum => exact .same (igetFor_disk h)
  | idup p ip =>
    simp only [call] at h
    split at h
    · cases h
      exact .same rfl
    · cases h
  | ilock p ip =>
    simp only [call, ilock] at h
    split at h
    · split at h
      · cases h
      · cases h
        exact .same rfl
    · cases h
  | change p ip d =>
    simp only [call] at h
    split at h
    · cases h
      exact .same rfl
    · cases h
  | iupdate p ip =>
    simp only [call] at h
    split at h
    next lock =>
      cases h
      have e := inv.entry ip
      have fits := e.fits (e.lock_pos lock)
      rw [mode_idle idle lock] at fits
      exact .written (s.itable ip).key (s.itable ip).copy fits.2.1 rfl
    next => cases h
  | iunlock p ip =>
    simp only [call, iunlock] at h
    split at h
    · cases h
    · split at h
      · cases h
      · cases h
        exact .same rfl
  | iput p ip =>
    simp only [call] at h
    split at h
    · exact .same (iput_disk h)
    · cases h
  | go p => cases h

theorem diskStep {ninodes : Nat} {e : Event n} (inv : Inv s) (h : step ninodes s e = .ok t) :
    DiskStep e s t := by
  unfold step at h
  split at h
  next => exact diskStep_go inv h
  next =>
    split at h
    next idle => exact diskStep_call inv idle h
    next => cases h

structure Sound (ninodes : Nat) (s : State n) : Prop where
  /-- An inode has one entry. -/
  unique : ∀ i j, 0 < (s.itable i).ref → 0 < (s.itable j).ref →
    (s.itable i).key = (s.itable j).key → i = j
  /-- The copy of an entry in use that nobody has locked is the inode on disk. -/
  agrees : ∀ i, 0 < (s.itable i).ref → (s.itable i).lock = none → (s.itable i).valid = true →
    (s.itable i).copy = s.disk (s.itable i).key
  /-- `iput` goes on to free an inode without links to which there is no other reference. -/
  decides : ∀ p i t, step ninodes s (.iput p i) = .ok t → t.pc p = .truncating i →
    (s.itable i).ref = 1 ∧ (s.disk (s.itable i).key).nlink = 0 ∧ s.puts i = 0 ∧ ¬ s.used i
  /-- Until the inode is free on disk it has no links, and no other reference unless by `iget`. -/
  frees : ∀ p i, s.pc p = .truncating i ∨ s.pc p = .clearing i →
    (s.itable i).lock = some p ∧ (s.disk (s.itable i).key).type ≠ 0 ∧
      (s.disk (s.itable i).key).nlink = 0 ∧ (s.calm i = true → (s.itable i).ref = 1)
  /-- No other step frees an inode on disk. -/
  only : ∀ e t k, step ninodes s e = .ok t → (s.disk k).type ≠ 0 → (t.disk k).type = 0 →
    ∃ p i, e = .go p ∧ s.pc p = .clearing i ∧ (s.itable i).key = k
  /-- An inode that `ialloc` hands out again is left alone. -/
  later : ∀ p i t, s.pc p = .releasing i ∨ s.pc p = .dropping i →
    step ninodes s (.go p) = .ok t → t.disk = s.disk
  /-- `iput` does not sleep with `itable.lock`. -/
  awake : ∀ p i, step ninodes s (.iput p i) ≠ .error .panic

theorem step_iput {ninodes : Nat} {r : Except Stop (State n)}
    (h : step ninodes s (.iput p i) = r) (ran : r ≠ .error .disabled) :
    s.pc p = .idle ∧ s.needed i < (s.itable i).ref ∧ iput s p i = r := by
  by_cases idle : s.pc p = .idle
  · by_cases spare : s.needed i < (s.itable i).ref
    · simp only [step, call, Event.proc, if_pos idle, if_pos spare] at h
      exact ⟨idle, spare, h⟩
    · simp only [step, call, Event.proc, if_pos idle, if_neg spare] at h
      exact absurd h.symm ran
  · have refused : step ninodes s (.iput p i) = .error .disabled := if_neg idle
    exact absurd (h.symm.trans refused) ran

theorem iput_truncating {ninodes : Nat} (inv : Inv s) (h : step ninodes s (.iput p i) = .ok t)
    (place : t.pc p = .truncating i) :
    (s.itable i).ref = 1 ∧ (s.disk (s.itable i).key).nlink = 0 ∧ s.puts i = 0 ∧ ¬ s.used i := by
  have e := inv.entry i
  obtain ⟨idle, spare, h⟩ := step_iput h nofun
  unfold iput at h
  dsimp only at h
  split at h
  next last =>
    split at h
    next => cases h
    next free =>
      obtain ⟨one, valid, unlinked⟩ := last
      have fits := e.fits (by omega)
      rw [mode_none (by simpa using free)] at fits
      rw [one] at spare
      refine ⟨one, (congrArg Dinode.nlink (fits valid).1).symm.trans unlinked, ?_, fun used => ?_⟩
      · have le : s.puts i ≤ s.needed i := puts_le_needed
        omega
      · rw [State.needed, if_pos used] at spare
        omega
  next =>
    cases h
    have place : s.pc p = .truncating i := place
    rw [idle] at place
    cases place

theorem iput_awake {ninodes : Nat} : step ninodes s (.iput p i) ≠ .error .panic := by
  intro h
  obtain ⟨-, spare, h⟩ := step_iput h nofun
  unfold iput at h
  dsimp only at h
  split at h
  next last =>
    split at h
    next locked =>
      obtain ⟨q, lock⟩ := Option.isSome_iff_exists.mp locked
      rw [last.1] at spare
      by_cases frees : (s.pc q).frees = some i
      · have one := one_le_puts (puts_of_frees frees)
        have le : s.puts i ≤ s.needed i := puts_le_needed
        omega
      · have used : s.used i := ⟨q, .inr ⟨lock, frees⟩⟩
        rw [State.needed, if_pos used] at spare
        omega
    next => cases h
  next => cases h

theorem Inv.sound {ninodes : Nat} (inv : Inv s) : Sound ninodes s where
  unique := inv.unique
  agrees := by
    intro i pos free valid
    have fits := (inv.entry i).fits pos
    rw [mode_none free] at fits
    exact (fits valid).1
  decides := fun p i t h place => iput_truncating inv h place
  frees := by
    intro p i place
    have e := inv.entry i
    obtain ⟨lock, freeing⟩ := mode_of_freeing e place
    have fits := e.fits (e.lock_pos lock)
    rw [freeing] at fits
    exact ⟨lock, fits.2.2.1, fits.2.2.2, e.calm freeing⟩
  only := by
    intro e t k h typed free
    cases diskStep inv h with
    | same disk => exact absurd (disk ▸ free) typed
    | marked k' d unused disk =>
      rw [disk] at free
      by_cases here : k = k'
      · exact absurd (here ▸ unused) typed
      · rw [update_of_ne here] at free
        exact absurd free typed
    | written k' d typed' disk =>
      rw [disk] at free
      by_cases here : k = k'
      · subst here
        rw [update_self] at free
        exact absurd free typed'
      · rw [update_of_ne here] at free
        exact absurd free typed
    | freed p i d call place disk =>
      refine ⟨p, i, call, place, ?_⟩
      by_contra other
      rw [disk, update_of_ne (Ne.symm other)] at free
      exact absurd free typed
  later := by
    intro p i t place h
    rcases place with place | place <;> simp only [step, go, place] at h <;> cases h <;> rfl
  awake := fun p i => iput_awake

/-- The inode table in every state that the processes reach. -/
theorem inode_table_sound {ninodes : Nat} {disk : Nat × Nat → Dinode} {es : List (Event n)}
    (h : run (step ninodes) (boot n disk) es = .ok s) : Sound ninodes s :=
  (run_invariant_all (fun _ _ _ inv h => inv_step inv h) (inv_boot disk) h).sound

/-- A disk of files with the given number of links. -/
def files (nlink : BitVec 16) (_ : Nat × Nat) : Dinode := ⟨2, 0, 0, nlink, 0, fun _ => 0⟩

/-- A file is found in the table and read. -/
def opening (p : Fin n) (ip : Ip) (inum : Nat) : List (Event n) :=
  [.iget p 0 inum, .ilock p ip, .go p, .go p, .go p]

/-- The process gets as far as the test in `iput` of a file without links. -/
def putting (p : Fin n) (ip : Ip) : List (Event n) := opening p ip 1 ++ [.iunlock p ip, .iput p ip]

/-- `ialloc` hands out the inode before `iput` drops its reference. -/
def again (p q : Fin n) (ip : Ip) : List (Event n) :=
  putting p ip ++ [.go p, .go p, .ialloc q 0 5, .go q, .go q, .go p]

theorem inode_table_sound_again : ∃ s, run (step 200) (boot 2 (files 0)) (again 0 1 0) = .ok s ∧
    s.pc 0 = .dropping 0 ∧ s.ret 1 = some 0 ∧ (s.itable 0).ref = 2 ∧ (s.disk (0, 1)).type = 5 ∧
    Sound 200 s := by
  have ran : Yields (run (step 200) (boot 2 (files 0)) (again 0 1 0)) fun s =>
      s.pc 0 = .dropping 0 ∧ s.ret 1 = some 0 ∧ (s.itable 0).ref = 2 ∧
        (s.disk (0, 1)).type = 5 := by
    decide +kernel
  obtain ⟨s, h, place, ret, ref, type⟩ := ran
  exact ⟨s, h, place, ret, ref, type, inode_table_sound h⟩

/-- An entry is given up, its inode gets another entry and is changed there. -/
def moved (p : Fin n) (i j : Ip) : List (Event n) :=
  .iget p 0 2 :: opening p j 1 ++ [.iunlock p j, .iput p i, .iput p j] ++ opening p i 1 ++
    [.change p i (files 7 (0, 1)), .iupdate p i, .iunlock p i]

/-- A valid entry that nobody has locked, and that is not in use, is out of date; and an inode is
freed while another process has a reference that it got after the test. -/
theorem stale_and_shared :
    (∃ s, run (step 200) (boot 2 (files 1)) (moved 0 0 1) = .ok s ∧ (s.itable 1).lock = none ∧
      (s.itable 1).valid = true ∧ (s.itable 1).copy ≠ s.disk (s.itable 1).key) ∧
    ∃ s, run (step 200) (boot 2 (files 0)) (putting 0 0 ++ [.iget 1 0 1, .go 0, .go 0]) = .ok s ∧
      s.pc 0 = .releasing 0 ∧ s.ret 1 = some 0 ∧ (s.itable 0).ref = 2 ∧
      (s.disk (s.itable 0).key).type = 0 := by
  have stale : Yields (run (step 200) (boot 2 (files 1)) (moved 0 0 1)) fun s =>
      (s.itable 1).lock = none ∧ (s.itable 1).valid = true ∧
      (s.itable 1).copy.nlink ≠ (s.disk (s.itable 1).key).nlink := by decide +kernel
  have shared : Yields
      (run (step 200) (boot 2 (files 0)) (putting 0 0 ++ [.iget 1 0 1, .go 0, .go 0])) fun s =>
      s.pc 0 = .releasing 0 ∧ s.ret 1 = some 0 ∧ (s.itable 0).ref = 2 ∧
        (s.disk (s.itable 0).key).type = 0 := by decide +kernel
  obtain ⟨s, h, lock, valid, other⟩ := stale
  exact ⟨⟨s, h, lock, valid, fun same => other (congrArg Dinode.nlink same)⟩, shared⟩

end Steps

end InodeSharing
