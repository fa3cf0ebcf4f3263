import Xv6.CallLedgers
import Xv6.ExecCalls
import Xv6.MemoryAccounts
import Xv6.SbrkCalls

/-!
# What exec leaves

Until the new image takes its place the process is not touched: the new table is on the
side, and the pages it has are those that are no longer free. So label `bad` has to
free a table of known size, and the inode if it is still held.
-/

namespace ExecImages

open CallLedgers
open CallOutlines hiding exec
open ExecCalls Function MemoryAccounts Outcomes PagetableCalls PagetableViews Pagetables Triples
open ProcessMemory hiding exec loadLoop

attribute [local irreducible] PagetableViews.users nodes

variable {n : Nat} {t : Pagetable} {m : Memory} {v w : Nat} {pte : Pte}

theorem walk_low {alloc : Bool} {va : Nat} {x : Option (Option Pte) × Pagetable × Memory}
    (h : walk t va alloc m = .ok x) : va < MAXVA := by
  unfold walk at h
  split at h
  · cases h
  · exact Nat.lt_of_not_le ‹_›

theorem page_small (low : v * PGSIZE < MAXVA) : v < 512 ^ 3 := by
  simp only [PGSIZE, MAXVA] at low
  omega

theorem next_address : v * PGSIZE + PGSIZE = (v + 1) * PGSIZE := (Nat.succ_mul v PGSIZE).symm

theorem mapLoop_new {perm : Perm} {last rounds : Nat} {pa : Page} {x : Bool × Pagetable × Memory}
    (h : mapLoop perm last rounds (v * PGSIZE) pa t m = .ok x) (hw : w < 512 ^ 3)
    (there : find x.2.1 w = some pte) : find t w = some pte ∨ pte.perm = perm := by
  induction rounds generalizing v pa t m with
  | zero =>
    obtain rfl := Except.ok.inj h
    exact .inl there
  | succ rounds ih =>
    rw [mapLoop] at h
    obtain ⟨⟨e, t', m'⟩, walked, h⟩ := bind_eq_ok.mp h
    have low := walk_low walked
    obtain ⟨-, same, -, result⟩ := (walk_true low).of_ok walked
    simp only at same result
    rcases e with _ | _ | old
    · obtain rfl := Except.ok.inj h
      exact .inl ((same w).symm.trans there)
    · have entry := result.resolve_left (Option.some_ne_none _)
      have stored := (store_spec (e := some ⟨pa, perm⟩)
        (by rw [← entry]; exact Option.some_ne_none _) (page_small low)).1 w hw
      have new (found : find (store t' (v * PGSIZE) (some ⟨pa, perm⟩)) w = some pte) :
          find t w = some pte ∨ pte.perm = perm := by
        rw [stored] at found
        split at found
        · exact .inr (congrArg Pte.perm (Option.some.inj found)).symm
        · exact .inl ((same w).symm.trans found)
      simp only [next_address] at h
      split at h
      · obtain rfl := Except.ok.inj h
        exact new there
      · exact (ih h).elim new .inr
    · cases h

theorem unmapLoop_old {doFree : Bool} {npages : Nat} {x : Pagetable × Memory}
    (h : unmapLoop doFree npages (v * PGSIZE) t m = .ok x) (hw : w < 512 ^ 3)
    (there : find x.1 w = some pte) : find t w = some pte := by
  induction npages generalizing v t m with
  | zero =>
    obtain rfl := Except.ok.inj h
    exact there
  | succ npages ih =>
    rw [unmapLoop] at h
    have low : v * PGSIZE < MAXVA := by
      obtain ⟨e, walked, -⟩ := bind_eq_ok.mp h
      exact walk_low walked
    simp only [walk_false low, Bind.bind, Except.bind] at h
    cases entry : slot t (v * PGSIZE) with
    | none =>
      rw [entry] at h
      cases h
    | some old =>
      rw [entry] at h
      cases old with
      | none => cases h
      | some old =>
        simp only [next_address] at h
        split at h
        · cases h
        · have stored := (store_spec (e := none)
            (by rw [entry]; exact Option.some_ne_none _) (page_small low)).1 w hw
          have kept {m' : Memory} (h : unmapLoop doFree npages ((v + 1) * PGSIZE)
              (store t (v * PGSIZE) none) m' = .ok x) : find t w = some pte := by
            have found := ih h
            rw [stored] at found
            split at found
            · cases found
            · exact found
          cases doFree with
          | false => exact kept h
          | true =>
            obtain ⟨m₂, -, h⟩ := bind_eq_ok.mp h
            exact kept h

theorem uvmunmap_old {doFree : Bool} {npages : Nat} {x : Pagetable × Memory}
    (h : uvmunmap t (v * PGSIZE) npages doFree m = .ok x) (hw : w < 512 ^ 3)
    (there : find x.1 w = some pte) : find t w = some pte := by
  unfold uvmunmap at h
  split at h
  · cases h
  · exact unmapLoop_old h hw there

theorem uvmdealloc_old {oldsz newsz : Nat} {x : Nat × Pagetable × Memory}
    (h : uvmdealloc t oldsz newsz m = .ok x) (hw : w < 512 ^ 3)
    (there : find x.2.1 w = some pte) : find t w = some pte := by
  unfold uvmdealloc at h
  split at h
  · obtain rfl := Except.ok.inj h
    exact there
  · split at h
    · obtain ⟨⟨t', m'⟩, undone, h⟩ := bind_eq_ok.mp h
      obtain rfl := Except.ok.inj h
      exact uvmunmap_old undone hw there
    · obtain rfl := Except.ok.inj h
      exact there

theorem allocLoop_new {oldsz newsz rounds : Nat} {xperm : Perm} {x : Nat × Pagetable × Memory}
    (h : allocLoop oldsz newsz xperm rounds (v * PGSIZE) t m = .ok x) (hw : w < 512 ^ 3)
    (there : find x.2.1 w = some pte) :
    find t w = some pte ∨ pte.perm = { xperm with r := true, u := true } := by
  induction rounds generalizing v t m with
  | zero =>
    obtain rfl := Except.ok.inj h
    exact .inl there
  | succ rounds ih =>
    have first : PGROUNDDOWN (v * PGSIZE) = v * PGSIZE := by
      simp only [PGROUNDDOWN, PGSIZE]
      omega
    unfold allocLoop at h
    split at h
    · split at h
      · obtain ⟨y, undone, h⟩ := bind_eq_ok.mp h
        obtain rfl := Except.ok.inj h
        exact .inl (uvmdealloc_old undone hw there)
      · obtain ⟨⟨ok, t', m'⟩, mapped, h⟩ := bind_eq_ok.mp h
        unfold mappages at mapped
        rw [if_neg (by decide)] at mapped
        simp only [first] at mapped
        cases ok with
        | false =>
          obtain ⟨m₂, -, h⟩ := bind_eq_ok.mp h
          obtain ⟨y, undone, h⟩ := bind_eq_ok.mp h
          obtain rfl := Except.ok.inj h
          exact mapLoop_new mapped hw (uvmdealloc_old undone hw there)
        | true =>
          have next : (v * PGSIZE + PGSIZE) % 2 ^ 64 = (v + 1) % 2 ^ 52 * PGSIZE := by
            simp only [PGSIZE]
            omega
          simp only [next] at h
          exact (ih h).elim (fun found => mapLoop_new mapped hw found) .inr
    · obtain rfl := Except.ok.inj h
      exact .inl there

/-- The user may use every page that is mapped below `TRAPFRAME`. -/
def AllUser (t : Pagetable) : Prop := ∀ v < USER, ∀ pte, find t v = some pte → pte.perm.u = true

theorem allUser_empty (empty : Shape t 0) : AllUser t := by
  intro v hv pte there
  have far : v < 512 ^ 3 := hv.trans (by decide)
  have mapped := (empty.mapped v far).mp (by rw [there]; exact Option.some_ne_none _)
  have above : USER ≤ v := by omega
  exact absurd hv (Nat.not_lt_of_le above)

theorem AllUser.uvmalloc {oldsz newsz : Nat} {xperm : Perm} {x : Nat × Pagetable × Memory}
    (all : AllUser t) (h : uvmalloc t oldsz newsz xperm m = .ok x) : AllUser x.2.1 := by
  intro v hv pte there
  have small : v < 512 ^ 3 := hv.trans (by decide)
  unfold Pagetables.uvmalloc at h
  split at h
  · obtain rfl := Except.ok.inj h
    exact all v hv pte there
  · have round : PGROUNDUP oldsz = pages oldsz * PGSIZE := by
      rw [pages, PGROUNDUP, Nat.mul_div_cancel _ (by decide : 0 < PGSIZE)]
    simp only [round] at h
    rcases allocLoop_new h small there with old | new
    · exact all v hv pte old
    · rw [new]

/-- `uvmclear` takes one page from the user. -/
theorem uvmclear_find {x : Pagetable × Memory} (h : uvmclear t (v * PGSIZE) m = .ok x)
    (hw : w < 512 ^ 3) : find x.1 w =
      if w = v then (find t v).map fun pte => { pte with perm := { pte.perm with u := false } }
      else find t w := by
  unfold uvmclear at h
  have low : v * PGSIZE < MAXVA := by
    obtain ⟨e, walked, -⟩ := bind_eq_ok.mp h
    exact walk_low walked
  simp only [walk_false low, Bind.bind, Except.bind] at h
  cases entry : slot t (v * PGSIZE) with
  | none =>
    rw [entry] at h
    cases h
  | some e =>
    rw [entry] at h
    obtain rfl := Except.ok.inj h
    rw [(store_spec (by rw [entry]; exact Option.some_ne_none _) (page_small low)).1 w hw,
      find_of_slot entry]

/-- A new table with pages up to `sz`; it and the free list have what was free. -/
structure Aside (m₀ : Memory) (t : Pagetable) (sz : Nat) (m : Memory) : Prop where
  shape : Shape t (pages sz)
  small : sz ≤ USER * PGSIZE
  kernel : m.kernelEnd = m₀.kernelEnd
  all : ∀ pg, held t m pg = free m₀ pg

/-- What was free is free again. -/
structure Back (m₀ m : Memory) : Prop where
  kernel : m.kernelEnd = m₀.kernelEnd
  all : ∀ pg, free m pg = free m₀ pg

/-- Each part of the world by itself; the process is still the old one. -/
structure At (fs : CallOutlines.State n → Prop) (memory : Memory → Prop) (p : Process)
    (w : World n) : Prop where
  fs : fs w.fs
  memory : memory w.memory
  proc : w.proc = p

/-- Only the file system may stop a call. -/
def Stops (e : Fault) : Prop := ∃ stop, e = .fs stop ∧ Allowed stop

/-- A piece of `exec`. -/
abbrev Part {A : Type} (P : World n → Prop) (x : Exec n A) (Q : A → World n → Prop) : Prop :=
  Triple Stops P x Q

variable {A : Type} {F : CallOutlines.State n → Prop} {I : Memory → Prop} {p : Process}
  {m₀ : Memory} {sz : Nat}

theorem onFs_part {x : Call n A} {G : A → CallOutlines.State n → Prop} (h : Spec F x G) :
    Part (At F I p) (onFs x) fun a => At (G a) I p := by
  intro w at_
  have here := h w.fs at_.fs
  unfold onFs
  cases run : x w.fs with
  | error stop =>
    rw [run] at here
    exact ⟨stop, rfl, here⟩
  | ok r =>
    rw [run] at here
    exact ⟨here, at_.memory, at_.proc⟩

theorem onMemory_part {f : Memory → Except Panic (A × Memory)} {J : A → Memory → Prop}
    (h : ∀ m, I m → Yields (f m) fun r => J r.1 r.2) :
    Part (At F I p) (onMemory f) fun a => At F (J a) p := by
  intro w at_
  obtain ⟨r, run, here⟩ := h w.memory at_.memory
  unfold onMemory
  rw [run]
  exact ⟨at_.fs, here, at_.proc⟩

/-- A fact about the memory that does not depend on it. -/
theorem part_of {φ : Prop} {x : Exec n A} {Q : A → World n → Prop} (h : φ → Part (At F I p) x Q) :
    Part (At F (fun m => φ ∧ I m) p) x Q :=
  fun w at_ => h at_.memory.1 w ⟨at_.fs, at_.memory.2, at_.proc⟩

theorem readi_part : Part (At F I p) (readi : Exec n (List Byte)) fun _ => At F I p := by
  intro w at_
  cases given : w.reads with
  | nil =>
    simp only [readi, given]
    exact at_
  | cons bytes rest =>
    simp only [readi, given]
    exact ⟨at_.fs, at_.memory, at_.proc⟩

theorem Aside.owns (aside : Aside m₀ t sz m) (fine : ∀ pg, free m₀ pg ≤ ram m₀ pg) : Owns t m := by
  intro pg
  rw [aside.all, ram_congr aside.kernel]
  exact fine pg

theorem Aside.even {t' : Pagetable} {m' : Memory} {sz' : Nat} (aside : Aside m₀ t sz m)
    (even : Even t m t' m') (shape : Shape t' (pages sz')) (small : sz' ≤ USER * PGSIZE) :
    Aside m₀ t' sz' m' :=
  ⟨shape, small, even.kernel.trans aside.kernel, fun pg => (even.held pg).trans (aside.all pg)⟩

/-- The pages of the new image are there for `loadseg`. -/
theorem Aside.walkaddr (aside : Aside m₀ t sz m) (fine : ∀ pg, free m₀ pg ≤ ram m₀ pg)
    (kernel : 0 < m₀.kernelEnd) (all : AllUser t) (below : v < pages sz) :
    walkaddr t (v * PGSIZE) ≠ 0 := by
  have user : v < USER := below.trans_le aside.shape.within
  have far : v < 512 ^ 3 := user.trans (by decide)
  obtain ⟨pte, found⟩ :=
    Option.ne_none_iff_exists'.mp ((aside.shape.mapped v far).mpr (.inl below))
  have low : ¬ MAXVA ≤ v * PGSIZE := by
    rw [USER_eq] at user
    simp only [PGSIZE, MAXVA]
    omega
  have valid := (aside.owns fine).valid_user user found
  unfold ExecCalls.walkaddr
  rw [if_neg low, slot_of_find found]
  simp only [all v user pte found, if_true]
  have above := valid.2.1
  rw [aside.kernel] at above
  exact (kernel.trans_le above).ne'

theorem loadseg_part {k : Nat} {va filesz : Nat} (rounds : Nat)
    (there : ∀ j, j * PGSIZE < filesz → ExecCalls.walkaddr t ((v + j) * PGSIZE) ≠ 0)
    (start : va = v * PGSIZE) (low : va + filesz ≤ PHYSTOP)
    (enough : filesz + PGSIZE ≤ (k + rounds) * PGSIZE) (here : k * PGSIZE < filesz + PGSIZE) :
    Part (At F I p) (loadseg t va filesz rounds (k * PGSIZE) : Exec n Bool)
      fun _ => At F I p := by
  have done (ok : Bool) : Part (At F I p) (pure ok : Exec n Bool) fun _ => At F I p :=
    triple_pure fun _ at_ => at_
  induction rounds generalizing k with
  | zero => exact absurd enough (Nat.not_le_of_lt here)
  | succ rounds ih =>
    unfold loadseg
    refine triple_ite (fun more => triple_ite (fun zero => ?_) fun _ => ?_) fun _ => done true
    · refine absurd zero ?_
      have address : (va + k * PGSIZE) % 2 ^ 64 = (v + k) * PGSIZE := by
        rw [PHYSTOP] at low
        rw [start, Nat.add_mul, Nat.mod_eq_of_lt (by omega)]
      rw [address]
      exact there k more
    · refine triple_bind readi_part fun bytes => triple_ite (fun _ => done false) fun _ => ?_
      have next : (k * PGSIZE + PGSIZE) % 2 ^ 32 = (k + 1) * PGSIZE := by
        simp only [PHYSTOP, PGSIZE] at low more ⊢
        omega
      rw [next]
      refine ih ?_ ?_
      · rwa [Nat.add_right_comm, Nat.add_assoc]
      · rw [Nat.add_mul, Nat.one_mul]
        exact Nat.add_lt_add_right more _

theorem field_lt (bytes : List Byte) (offset size : Nat) :
    field bytes offset size < 256 ^ size := by
  have digits (l : List Byte) :
      l.foldr (fun b rest => b.toNat + 256 * rest) 0 < 256 ^ l.length := by
    induction l with
    | nil => exact Nat.one_pos
    | cons b l ih =>
      have byte := b.isLt
      simp only [List.foldr_cons, List.length_cons, Nat.pow_succ]
      omega
  refine (digits _).trans_le (Nat.pow_le_pow_right (by decide) ?_)
  exact List.length_take_le _ _

/-- What `uvmalloc` leaves, also if it fails. -/
theorem uvmalloc_part {newsz : Nat} {xperm : Perm} (fine : ∀ pg, free m₀ pg ≤ ram m₀ pg) :
    Part (At F (Aside m₀ t sz) p) (onMemory fun m => do
        let (sz1, t, m) ← uvmalloc t sz newsz xperm m
        .ok ((sz1, t), m) : Exec n (Nat × Pagetable))
      fun r w => (AllUser t → AllUser r.2) ∧
        ((r.1 = 0 ∧ At F (Aside m₀ r.2 sz) p w) ∨
          (r.1 = max sz newsz ∧ At F (Aside m₀ r.2 r.1) p w)) := by
  refine (onMemory_part (J := fun r m => (AllUser t → AllUser r.2) ∧
    ((r.1 = 0 ∧ Aside m₀ r.2 sz m) ∨ (r.1 = max sz newsz ∧ Aside m₀ r.2 r.1 m)))
      fun m aside => ?_).mono (fun _ at_ => at_) ?_
  · have spec : Yields (uvmalloc t sz newsz xperm m) _ :=
      uvmalloc_spec aside.shape (aside.owns fine) aside.small
    obtain ⟨⟨sz1, t', m'⟩, run, even, result⟩ := spec
    simp only [run, Bind.bind, Except.bind]
    refine yields_ok ⟨fun all => all.uvmalloc run, ?_⟩
    rcases result with ⟨zero, shape⟩ | ⟨size, within, shape⟩
    · exact .inl ⟨zero, aside.even even shape aside.small⟩
    · exact .inr ⟨size, aside.even even shape within⟩
  · rintro r w ⟨fs, ⟨all', result⟩, proc⟩
    refine ⟨all', result.imp ?_ ?_⟩
    · rintro ⟨zero, aside⟩
      exact ⟨zero, fs, aside, proc⟩
    · rintro ⟨size, aside⟩
      exact ⟨size, fs, aside, proc⟩

/-- A segment that lies within the size of the table is loaded, or a read fails. -/
theorem loadseg_fits {va filesz : Nat} (fine : ∀ pg, free m₀ pg ≤ ram m₀ pg)
    (kernel : 0 < m₀.kernelEnd) (all : AllUser t) (aligned : va % PGSIZE = 0)
    (inside : va + filesz ≤ sz) :
    Part (At F (Aside m₀ t sz) p) (loadseg t va filesz (filesz / PGSIZE + 2) 0 : Exec n Bool)
      fun _ => At F (Aside m₀ t sz) p := by
  intro w at_
  have few : sz ≤ PHYSTOP := by
    have few := at_.memory.shape.few (at_.memory.owns fine)
    rw [pages_eq at_.memory.small] at few
    simp only [PHYSTOP, PGSIZE] at few ⊢
    omega
  have start : va = va / PGSIZE * PGSIZE := by
    simp only [PGSIZE] at aligned ⊢
    omega
  have loaded : Part (At F (Aside m₀ t sz) p)
      (loadseg t va filesz (filesz / PGSIZE + 2) (0 * PGSIZE) : Exec n Bool)
      fun _ => At F (Aside m₀ t sz) p := by
    refine loadseg_part _ (fun j below => ?_) start (inside.trans few) ?_ ?_
    · refine at_.memory.walkaddr fine kernel all ?_
      rw [pages_eq at_.memory.small]
      simp only [PGSIZE] at below start ⊢
      omega
    · simp only [PGSIZE]
      omega
    · rw [Nat.zero_mul]
      exact Nat.lt_add_left _ (by decide)
  rw [Nat.zero_mul] at loaded
  exact loaded w at_

theorem loadLoop_part (phnum : Nat) {t : Pagetable} {sz : Nat}
    (fine : ∀ pg, free m₀ pg ≤ ram m₀ pg) (kernel : 0 < m₀.kernelEnd) (all : AllUser t) :
    Part (At F (Aside m₀ t sz) p) (loadLoop phnum t sz : Exec n (Bool × Pagetable × Nat))
      fun r w => AllUser r.2.1 ∧ At F (Aside m₀ r.2.1 r.2.2) p w := by
  have stop (ok : Bool) {t : Pagetable} {sz : Nat} (all : AllUser t) :
      Part (At F (Aside m₀ t sz) p) (pure (ok, t, sz) : Exec n (Bool × Pagetable × Nat))
        fun r w => AllUser r.2.1 ∧ At F (Aside m₀ r.2.1 r.2.2) p w :=
    triple_pure fun _ at_ => ⟨all, at_⟩
  induction phnum generalizing t sz with
  | zero => exact stop true all
  | succ phnum ih =>
    unfold loadLoop
    refine triple_bind readi_part fun bytes => ?_
    refine triple_ite (fun _ => stop false all) fun _ => triple_ite (fun _ => ih all) fun _ =>
      triple_ite (fun _ => stop false all) fun larger => triple_ite (fun _ => stop false all)
        fun nowrap => triple_ite (fun _ => stop false all) fun aligned => ?_
    refine triple_bind (uvmalloc_part fine) ?_
    rintro ⟨sz1, t'⟩
    refine triple_of fun user => ?_
    have all' : AllUser t' := user all
    have ended : (proghdr bytes).vaddr + (proghdr bytes).memsz < 2 ^ 64 := by
      have one : (proghdr bytes).vaddr < 256 ^ 8 := field_lt bytes 16 8
      have two : (proghdr bytes).memsz < 256 ^ 8 := field_lt bytes 40 8
      omega
    rw [Nat.mod_eq_of_lt ended]
    simp only
    refine triple_ite (fun zero w result => ?_) fun more => ?_
    · refine stop false all' w ?_
      rcases result with ⟨-, at_⟩ | ⟨max_, at_⟩
      · exact at_
      · have none_ : sz = 0 := by omega
        rwa [none_, ← zero]
    · intro w result
      obtain ⟨size, at_⟩ := result.resolve_left fun h => more h.1
      have inside : (proghdr bytes).vaddr + (proghdr bytes).filesz % 2 ^ 32 ≤ sz1 := by
        have less := Nat.mod_le (proghdr bytes).filesz (2 ^ 32)
        omega
      refine triple_bind (loadseg_fits fine kernel all' (not_not.mp aligned) inside) ?_ w at_
      exact fun ok => triple_ite (fun _ => ih all') fun _ => stop false all'

/-- What label `bad` has to undo: the table on the side, the inode with its lock and the
transaction. -/
def Made (m₀ : Memory) : Option (Pagetable × Nat) → Memory → Prop
  | some (t, sz) => Aside m₀ t sz
  | none => Back m₀

def Opened (b : Base n) : Option Ip → CallOutlines.State n → Prop
  | some ip => Holds b true [ip] [ip]
  | none => Holds b false [] []

/-- The new process has exactly the pages of its size, one of them without the user, and
those of the old image are free. -/
structure Replaces (p p' : Process) (m m' : Memory) : Prop where
  mapped : ∀ v < 512 ^ 3, find p'.pagetable v ≠ none ↔ v * PGSIZE < p'.sz ∨ v = USER ∨ v = USER + 1
  guard : ∃ v pte, (v + 2) * PGSIZE = p'.sz ∧ find p'.pagetable v = some pte ∧ pte.perm.u = false
  trapframe : p'.trapframe = p.trapframe
  freed : ∀ pg, nodes p.pagetable pg + users p.pagetable pg ≠ 0 → free m' pg = 1
  all : ∀ pg, held p'.pagetable m' pg = held p.pagetable m pg

/-- The call fails and the process is what it was, or it has the new image. -/
structure Outcome (b : Base n) (p : Process) (m₀ : Memory) (argc : Nat) (r : Int) (w : World n) :
    Prop where
  fs : Holds b false [] [] w.fs
  kernel : w.memory.kernelEnd = m₀.kernelEnd
  image : (r = -1 ∧ w.proc = p ∧ ∀ pg, free w.memory pg = free m₀ pg) ∨
    (r = argc ∧ Replaces p w.proc m₀ w.memory)

/-- The process that calls, with its table, its trapframe and the free pages apart. -/
structure Ready (p : Process) (m₀ : Memory) : Prop where
  shape : Shape p.pagetable (pages p.sz)
  small : p.sz ≤ USER * PGSIZE
  afford : ∀ pg, free m₀ pg + ((if p.trapframe = pg then 1 else 0) +
    (nodes p.pagetable pg + users p.pagetable pg)) ≤ ram m₀ pg
  kernel : 0 < m₀.kernelEnd

variable {b : Base n} {argc : Nat}

theorem Ready.fine (ready : Ready p m₀) (pg : Page) : free m₀ pg ≤ ram m₀ pg :=
  (Nat.le_add_right _ _).trans (ready.afford pg)

theorem free_table_part (fine : ∀ pg, free m₀ pg ≤ ram m₀ pg) :
    Part (At F (Aside m₀ t sz) p) (onMemory fun m => do
        let m ← proc_freepagetable t sz m
        .ok ((), m) : Exec n Unit) fun _ => At F (Back m₀) p := by
  refine onMemory_part fun m aside => ?_
  refine (proc_freepagetable_spec aside.shape (aside.owns fine) aside.small).bind ?_
  rintro m' ⟨kernel, count⟩
  exact yields_ok ⟨kernel.trans aside.kernel, fun pg => (count pg).trans (aside.all pg)⟩

theorem bad_part (fine : ∀ pg, free m₀ pg ≤ ram m₀ pg) (table : Option (Pagetable × Nat))
    (ip : Option Ip) :
    Part (At (Opened b ip) (Made m₀ table) p) (bad table ip) (Outcome b p m₀ argc) := by
  have over_ : Part (At (Holds b false [] []) (Back m₀) p) (pure (-1) : Exec n Int)
      (Outcome b p m₀ argc) :=
    triple_pure fun _ at_ => ⟨at_.fs, at_.memory.kernel, .inl ⟨rfl, at_.proc, at_.memory.all⟩⟩
  have put (ip : Ip) : Part (At (Holds b true [ip] [ip]) (Back m₀) p)
      (onFs (iunlockput ip) : Exec n PUnit) fun _ => At (Holds b true [] []) (Back m₀) p :=
    onFs_part (iunlockput_holds (by simp))
  rcases table with _ | ⟨t, sz⟩ <;> rcases ip with _ | ip
  · exact over_
  · exact triple_bind (put ip) fun _ => triple_bind (onFs_part end_op_holds) fun _ => over_
  · exact triple_bind (free_table_part fine) fun _ => over_
  · exact triple_bind (free_table_part fine) fun _ => triple_bind (put ip) fun _ =>
      triple_bind (onFs_part end_op_holds) fun _ => over_

theorem pushLoop_argc {stackbase : Nat} {argv : List (List Byte)} {argc sp : Nat} {r : Nat × Nat}
    (h : pushLoop t stackbase argv argc sp = some r) : r.1 = argc + argv.length := by
  induction argv generalizing argc sp with
  | nil =>
    obtain rfl := Option.some.inj h
    rfl
  | cons arg rest ih =>
    simp only [pushLoop] at h
    split at h
    · cases h
    · split at h
      · cases h
      · split at h
        · cases h
        · rw [ih h, List.length_cons, Nat.add_assoc, Nat.add_comm 1]

/-- The old image goes when the new one is whole. -/
theorem replaces_freed (p' : Process) {guard : Pte} (ready : Ready p m₀)
    (aside : Aside m₀ t sz m) (size : (v + 2) * PGSIZE = sz) (found : find t v = some guard)
    (closed : guard.perm.u = false)
    (table : p'.pagetable = t) (size' : p'.sz = sz) (frame : p'.trapframe = p.trapframe) :
    Yields (proc_freepagetable p.pagetable p.sz m) fun m' =>
      m'.kernelEnd = m₀.kernelEnd ∧ Replaces p p' m₀ m' := by
  have ownsOld : Owns p.pagetable m := by
    intro pg
    have one := aside.all pg
    have two := ready.afford pg
    rw [ram_congr aside.kernel]
    unfold held at one ⊢
    omega
  refine (proc_freepagetable_spec ready.shape ownsOld ready.small).mono ?_
  rintro m' ⟨kernel, count⟩
  refine ⟨kernel.trans aside.kernel, fun v hv => ?_, ?_, frame, fun pg there => ?_, fun pg => ?_⟩
  · rw [table, size', aside.shape.mapped v hv, pages_eq aside.small]
    simp only [PGSIZE]
    omega
  · rw [table, size']
    exact ⟨v, guard, size, found, closed⟩
  · have now := count pg
    have most := (ownsOld pg).trans (ram_le_one m pg)
    unfold held at now most
    omega
  · have one := aside.all pg
    have two := count pg
    rw [table]
    unfold held at one two ⊢
    omega

theorem commit_part {path : List Byte} {entry sp : Nat} {guard : Pte} (ready : Ready p m₀)
    (size : (v + 2) * PGSIZE = sz) (found : find t v = some guard) (closed : guard.perm.u = false) :
    Part (At (Holds b false [] []) (Aside m₀ t sz) p) (commit path entry argc sp t sz)
      (Outcome b p m₀ argc) := by
  refine triple_bind (R := fun w w' => w.proc = p ∧ At (Holds b false [] []) (Aside m₀ t sz) p w')
    (triple_get fun w at_ => ⟨at_.proc, at_⟩) fun w => triple_of fun same => ?_
  refine triple_bind (R := fun _ => At (Holds b false [] []) (Aside m₀ t sz)
    (w.proc.replace path entry sp t sz))
      (triple_modify fun w' at_ => ⟨at_.fs, at_.memory, rfl⟩) fun _ => ?_
  subst same
  refine triple_bind (onMemory_part (J := fun _ m => m.kernelEnd = m₀.kernelEnd ∧
    Replaces w.proc (w.proc.replace path entry sp t sz) m₀ m) fun m aside => ?_) fun _ => ?_
  · refine (replaces_freed (w.proc.replace path entry sp t sz) ready aside size found closed
      rfl rfl rfl).bind ?_
    exact fun m' whole => yields_ok whole
  · refine triple_pure fun w' at_ => ⟨at_.fs, at_.memory.1, .inr ⟨rfl, ?_⟩⟩
    rw [at_.proc]
    exact at_.memory.2

/-- The page below the stack is taken from the user. -/
theorem guard_spec (aside : Aside m₀ t ((v + 2) * PGSIZE) m) :
    Yields (uvmclear t (v * PGSIZE) m) fun r =>
      (∃ pte, find r.1 v = some pte ∧ pte.perm.u = false) ∧
        Aside m₀ r.1 ((v + 2) * PGSIZE) r.2 := by
  have within : v + 2 ≤ USER := Nat.le_of_mul_le_mul_right aside.small (by decide)
  have below : v < pages ((v + 2) * PGSIZE) := by
    rw [pages_mul within]
    exact Nat.lt_add_of_pos_right (by decide)
  have far : v < 512 ^ 3 := (below.trans_le aside.shape.within).trans (by decide)
  obtain ⟨pte, found⟩ :=
    Option.ne_none_iff_exists'.mp ((aside.shape.mapped v far).mpr (.inl below))
  obtain ⟨r, run, shape, even⟩ := uvmclear_spec aside.shape below
  refine ⟨r, run, ⟨{ pte with perm := { pte.perm with u := false } }, ?_, rfl⟩,
    aside.even even shape aside.small⟩
  rw [uvmclear_find run far, if_pos rfl, found]
  rfl

theorem fillStack_part {path : List Byte} {argv : List (List Byte)} {entry : Nat}
    (ready : Ready p m₀) (short : argv.length < MAXARG) (size : sz = (v + 2) * PGSIZE) :
    Part (At (Holds b false [] []) (Aside m₀ t sz) p) (fillStack path argv entry t sz)
      (Outcome b p m₀ argv.length) := by
  have guard_ : sz - 2 * PGSIZE = v * PGSIZE := by
    rw [size, Nat.add_mul, Nat.add_sub_cancel]
  have failed (t : Pagetable) : Part (At (Holds b false [] []) (Aside m₀ t sz) p)
      (bad (some (t, sz)) none) (Outcome b p m₀ argv.length) :=
    bad_part ready.fine (some (t, sz)) none
  unfold fillStack
  simp only [guard_]
  generalize sz - PGSIZE = stackbase
  refine triple_bind (onMemory_part (J := fun t m => (∃ pte, find t v = some pte ∧
    pte.perm.u = false) ∧ Aside m₀ t sz m) fun m aside => ?_) fun t' => ?_
  · subst size
    exact guard_spec aside
  refine part_of fun ⟨guard, found, closed⟩ => ?_
  cases pushed : pushLoop t' stackbase argv 0 sz with
  | none => exact failed t'
  | some r =>
    obtain ⟨argc, sp⟩ := r
    have count : argc = argv.length := (pushLoop_argc pushed).trans (Nat.zero_add _)
    subst count
    refine triple_ite (fun many => absurd many (Nat.not_le_of_lt short)) fun _ => ?_
    refine triple_ite (fun _ => failed t') fun _ => triple_ite (fun _ => failed t') fun _ => ?_
    exact commit_part ready size.symm found closed

attribute [local irreducible] fillStack

theorem finish_part {path : List Byte} {argv : List (List Byte)} {entry : Nat}
    (ready : Ready p m₀) (short : argv.length < MAXARG) :
    Part (At (Holds b false [] []) (Aside m₀ t sz) p) (finish path argv entry t sz)
      (Outcome b p m₀ argv.length) := by
  intro w at_
  have within := at_.memory.shape.within
  have round : PGROUNDUP sz = pages sz * PGSIZE := by
    rw [pages_eq at_.memory.small, PGROUNDUP_eq at_.memory.small]
  have rounded : At (Holds b false [] []) (Aside m₀ t (pages sz * PGSIZE)) p w := by
    refine ⟨at_.fs, ⟨?_, Nat.mul_le_mul_right _ within, at_.memory.kernel, at_.memory.all⟩,
      at_.proc⟩
    rw [pages_mul within]
    exact at_.memory.shape
  have grow : (pages sz * PGSIZE + 2 * PGSIZE) % 2 ^ 64 = (pages sz + 2) * PGSIZE := by
    rw [USER_eq] at within
    simp only [PGSIZE]
    omega
  have larger : max (pages sz * PGSIZE) ((pages sz + 2) * PGSIZE) = (pages sz + 2) * PGSIZE :=
    max_eq_right (Nat.mul_le_mul_right _ (by omega))
  have some_ : (pages sz + 2) * PGSIZE ≠ 0 := Nat.mul_ne_zero (by omega) (by decide)
  have alloc : Part (At (Holds b false [] []) (Aside m₀ t (pages sz * PGSIZE)) p)
      (onMemory fun m => do
        let (sz1, t, m) ← uvmalloc t (pages sz * PGSIZE) ((pages sz + 2) * PGSIZE)
          ⟨false, true, false, false⟩ m
        .ok ((sz1, t), m) : Exec n (Nat × Pagetable)) _ := uvmalloc_part ready.fine
  rw [larger] at alloc
  refine Triple.mono (P := At (Holds b false [] []) (Aside m₀ t (pages sz * PGSIZE)) p) ?_
    (fun _ h => h) (fun _ _ h => h) w rounded
  unfold finish
  simp only [round, grow]
  refine triple_bind alloc ?_
  rintro ⟨sz1, t'⟩
  simp only
  refine triple_ite (fun zero => ?_) fun more => ?_
  · refine Triple.mono (bad_part ready.fine (some (t', pages sz * PGSIZE)) none) ?_ fun _ _ h => h
    rintro w' ⟨-, ⟨-, at_⟩ | ⟨size, -⟩⟩
    · exact at_
    · exact (some_ (size.symm.trans zero)).elim
  · refine Triple.mono (triple_of fun size => fillStack_part (v := pages sz) ready short size) ?_
      fun _ _ h => h
    rintro w' ⟨-, ⟨zero, -⟩ | whole⟩
    · exact absurd zero more
    · exact whole

attribute [local irreducible] finish

theorem proc_pagetable_part {trampoline trapframe : Page} (fine : ∀ pg, free m₀ pg ≤ ram m₀ pg) :
    Part (At F (Back m₀) p)
      (onMemory (proc_pagetable trampoline trapframe) : Exec n (Option Pagetable))
      fun r => At F (fun m => (r = none → Back m₀ m) ∧
        ∀ t, r = some t → AllUser t ∧ Aside m₀ t 0 m) p := by
  refine onMemory_part fun m back => ?_
  have fine' (pg : Page) : free m pg ≤ ram m pg := by
    rw [back.all, ram_congr back.kernel]
    exact fine pg
  refine (proc_pagetable_spec fine').mono ?_
  rintro ⟨r, m'⟩ ⟨kernel, failed, made⟩
  refine ⟨fun none_ => ⟨kernel.trans back.kernel, fun pg => ?_⟩, fun t some_ => ?_⟩
  · rw [failed none_, back.all]
  · obtain ⟨shape, all⟩ := made t some_
    refine ⟨allUser_empty shape, ⟨by rwa [pages_zero], Nat.zero_le _,
      kernel.trans back.kernel, fun pg => (all pg).trans (back.all pg)⟩⟩

theorem exec_part {trampoline : Page} {q : Fin n} {path : List Byte} {argv : List (List Byte)}
    (ready : Ready p m₀) (short : argv.length < MAXARG) :
    Part (At (Holds b false [] []) (fun m => m = m₀) p) (exec trampoline q path argv)
      (Outcome b p m₀ argv.length) := by
  have none_ (ip : Option Ip) : Part (At (Opened b ip) (Back m₀) p) (bad none ip : Exec n Int)
      (Outcome b p m₀ argv.length) := bad_part ready.fine none ip
  refine Triple.mono (P := At (Holds b false [] []) (Back m₀) p) ?_ ?_ fun _ _ out => out
  · refine triple_bind (onFs_part begin_op_holds) fun _ => ?_
    refine triple_bind (onFs_part namex_holds) fun r => ?_
    cases r with
    | none =>
      refine triple_bind (onFs_part end_op_holds) fun _ => triple_pure fun w at_ => ?_
      exact ⟨at_.fs, at_.memory.kernel, .inl ⟨rfl, at_.proc, at_.memory.all⟩⟩
    | some ip =>
      refine triple_bind (onFs_part (G := fun _ => Holds b true [ip] [ip]) ?_) fun _ => ?_
      · exact Triple.mono ilock_holds (fun _ holds => holds) fun _ _ locked => locked.2
      refine triple_bind readi_part fun bytes => triple_ite (fun _ => none_ (some ip)) fun _ =>
        triple_ite (fun _ => none_ (some ip)) fun _ => ?_
      refine triple_bind (R := fun w w' => w.proc = p ∧
        At (Holds b true [ip] [ip]) (Back m₀) p w') (triple_get fun w at_ => ⟨at_.proc, at_⟩)
        fun w => triple_of fun _ => ?_
      refine triple_bind (proc_pagetable_part ready.fine) fun r => ?_
      cases r with
      | none =>
        refine Triple.mono (none_ (some ip)) (fun w at_ => ?_) fun _ _ out => out
        exact ⟨at_.fs, at_.memory.1 rfl, at_.proc⟩
      | some t =>
        refine Triple.mono
          (P := At (Holds b true [ip] [ip]) (fun m => AllUser t ∧ Aside m₀ t 0 m) p)
          (part_of fun all => ?_) (fun w at_ => ⟨at_.fs, at_.memory.2 t rfl, at_.proc⟩)
          fun _ _ out => out
        refine triple_bind (loadLoop_part _ ready.fine ready.kernel all) ?_
        rintro ⟨loaded, t', sz⟩
        refine triple_of fun _ =>
          triple_ite (fun _ => bad_part ready.fine (some (t', sz)) (some ip)) fun _ => ?_
        refine triple_bind (onFs_part (iunlockput_holds (by simp))) fun _ => ?_
        exact triple_bind (onFs_part end_op_holds) fun _ => finish_part ready short
  · rintro w ⟨fs, rfl, proc⟩
    exact ⟨fs, ⟨rfl, fun _ => rfl⟩, proc⟩

/-- What any call leaves: no transaction, no lock and no reference, and the old image as it was or
a new one in its place. Only the file system may stop it. -/
theorem exec_settles (trampoline : Page) (q : Fin n) (path : List Byte) (argv : List (List Byte))
    (w : World n) (ready : Ready w.proc w.memory) (short : argv.length < MAXARG)
    (outside : w.fs.inOp = false) (unlocked : ∀ i, w.fs.locked i = false) :
    (∀ e, exec trampoline q path argv w = .error e → ∃ stop, e = .fs stop ∧ stop ≠ .misuse) ∧
      ∀ r w', exec trampoline q path argv w = .ok (r, w') →
        w'.fs.inOp = false ∧ (∀ i, w'.fs.locked i = false) ∧ (∀ i, w'.fs.ref i = w.fs.ref i) ∧
        ((r = -1 ∧ w'.proc = w.proc ∧ ∀ pg, free w'.memory pg = free w.memory pg) ∨
          (r = argv.length ∧ Replaces w.proc w'.proc w.memory w'.memory)) := by
  have start : Holds ⟨w.fs.ref, w.fs.ftable, w.fs.cwd⟩ false [] [] w.fs := by
    refine ⟨outside, fun i => ?_, fun i => ?_, rfl, rfl⟩
    · simp [unlocked i]
    · simp
  have out := @exec_part n _ w.memory _ trampoline q path argv ready short w ⟨start, rfl, rfl⟩
  constructor
  · intro e run
    rw [run] at out
    exact out
  · intro r w' run
    rw [run] at out
    refine ⟨out.fs.inOp, fun i => ?_, fun i => ?_, out.image⟩
    · simpa using out.fs.locked i
    · simpa using out.fs.ref i

/-- The first process, before a call of `exec` that is to read `reads`. -/
def started (ip : Ip) (answers : List Nat) (reads : List (List Byte)) : Option (World 1) := do
  let s ← (ProcessMemory.userinit (n := 1) 0x80007000 (SbrkCalls.freePages 24)).toOption.join
  let t ← (s.proc (Fin.last 0)).pagetable
  let trapframe ← (s.proc (Fin.last 0)).trapframe
  let p : Process := ⟨t, (s.proc (Fin.last 0)).sz, trapframe, ⟨0, 0, 0⟩, []⟩
  some ⟨atHome 1 ip answers, s.memory, reads, p⟩

theorem started_ready {ip : Ip} {answers : List Nat} {reads : List (List Byte)} {w : World 1}
    (h : started ip answers reads = some w) :
    w.fs = atHome 1 ip answers ∧ (0 < w.memory.kernelEnd → Ready w.proc w.memory) := by
  have starts : Yields (ProcessMemory.userinit (n := 1) 0x80007000 (SbrkCalls.freePages 24))
      fun up => ∀ s, up = some s → MemoryAccounts.Inv (free (SbrkCalls.freePages 24)) s :=
    MemoryAccounts.userinit_spec (SbrkCalls.freePages_ram (by decide))
  obtain ⟨up, made, inv⟩ := starts
  simp only [started, made] at h
  cases up with
  | none => cases h
  | some s =>
    obtain ⟨_, same, h⟩ := Option.bind_eq_some_iff.mp h
    cases same
    obtain ⟨t, table, h⟩ := Option.bind_eq_some_iff.mp h
    obtain ⟨trapframe, tf, h⟩ := Option.bind_eq_some_iff.mp h
    cases h
    have live : (s.proc (Fin.last 0)).state ≠ .unused := by
      intro unused
      rw [(((inv s rfl).fits (Fin.last 0)).unused unused).1] at tf
      cases tf
    obtain ⟨_, _, _, table', small, shape⟩ := ((inv s rfl).fits (Fin.last 0)).used live
    rw [table] at table'
    cases table'
    refine ⟨rfl, fun kernel => ⟨shape, small, fun pg => ?_, kernel⟩⟩
    rw [← owned_used tf table]
    exact (inv s rfl).affords (Fin.last 0) pg

/-- An ELF file with one program header, for 5000 bytes of which 3 are in the file. -/
def smallElf : List (List Byte) :=
  [[0x7F, 0x45, 0x4C, 0x46] ++ List.replicate 52 0 ++ [1] ++ List.replicate 7 0,
    [1, 0, 0, 0, 5] ++ List.replicate 27 0 ++ [3] ++ List.replicate 7 0 ++ [0x88, 0x13] ++
      List.replicate 14 0, [1, 2, 3]]

/-- The first process becomes "/in" with one argument. -/
theorem exec_settles_in : ∃ w w' : World 1,
    exec 0x80007000 0 [47, 105, 110] [[105, 110]] w = .ok (1, w') ∧
      Replaces w.proc w'.proc w.memory w'.memory ∧ ∀ i, w'.fs.ref i = w.fs.ref i := by
  have runs : (started 1 [0, 1, 0, 0, 0, 1, 0, 2, 0, 0] smallElf).map (fun w =>
      (decide (0 < w.memory.kernelEnd),
        (exec 0x80007000 0 [47, 105, 110] [[105, 110]] w).toOption.map Prod.fst)) =
      some (true, some 1) := by
    decide +kernel
  obtain ⟨w, start, same⟩ := Option.map_eq_some_iff.mp runs
  obtain ⟨kernel, returned⟩ := Prod.mk.inj same
  obtain ⟨fs, ready⟩ := started_ready start
  obtain ⟨w', run⟩ : ∃ w', exec 0x80007000 0 [47, 105, 110] [[105, 110]] w = .ok (1, w') := by
    cases run : exec 0x80007000 0 [47, 105, 110] [[105, 110]] w with
    | error e =>
      rw [run] at returned
      cases returned
    | ok out =>
      rw [run] at returned
      obtain ⟨r, w'⟩ := out
      have one : r = 1 := Option.some.inj returned
      exact ⟨w', by rw [one]⟩
  have unlocked (i : Ip) : w.fs.locked i = false := by
    rw [fs]
    rfl
  have settled := exec_settles 0x80007000 0 [47, 105, 110] [[105, 110]] w
    (ready (of_decide_eq_true kernel)) (by decide) (by rw [fs]; rfl) unlocked
  obtain ⟨-, -, refs, result⟩ := settled.2 1 w' run
  obtain ⟨-, image⟩ := result.resolve_left fun h => absurd h.1 (by decide)
  exact ⟨w, w', run, image, refs⟩

end ExecImages
