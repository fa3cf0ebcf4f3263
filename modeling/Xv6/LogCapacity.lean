import Mathlib.Algebra.BigOperators.Ring.Finset
import Xv6.Lib.Outcomes
import Xv6.LogCommits

/-!
# The room in the log

`begin_op` reserves `MAXOPBLOCKS` blocks for each operation in progress, less
what the operation has logged already, so the log never holds more than
`LOGSIZE` blocks. But `log_write` tests for a full log before it looks whether
the block is there already. When the reserved blocks have all been logged, one
more write of any of them panics, although it would need no room.
-/

namespace LogCapacity
open EventRuns LogFormat LogOperations LogCommits Tallies Function

variable {Proc : Type} [DecidableEq Proc] {s t : Log Proc} {e : Event Proc} {p q : Proc}

/-- What is still reserved for an operation in progress. -/
def reserve : Place → Nat
  | .inside _ own => MAXOPBLOCKS - own.length
  | _ => 0

/-- Each operation logs at most `MAXOPBLOCKS` distinct blocks. -/
def Within (s : Log Proc) : Event Proc → Prop
  | .logWrite p b => match s.place p with
    | .inside _ own => (own.insert b).length ≤ MAXOPBLOCKS
    | _ => True
  | _ => True

/-- `log.size` has not become negative, and a block that is in the log already
is logged only while the log is not full. -/
def Roomy (s : Log Proc) : Event Proc → Prop
  | .logWrite p b => match s.place p with
    | .inside _ _ => LOGSIZE < s.size ∧ (b ∈ s.lh → s.lh.length < LOGSIZE)
    | _ => True
  | _ => True

instance decidableWithin (s : Log Proc) : ∀ e, Decidable (Within s e)
  | .logWrite p b => by
    unfold Within
    dsimp only
    split <;> infer_instance
  | .beginOp _ | .wakes _ | .endOp _ | .commit _ | .kill _ => isTrue trivial

structure Capacity [Fintype Proc] (size : Int) (s : Log Proc) : Prop where
  size_eq : s.size = size
  own : ∀ p op own, s.place p = .inside op own →
    own ⊆ s.lh ∧ own.length ≤ MAXOPBLOCKS
  reserved : s.lh.length + ∑ q, reserve (s.place q) ≤ LOGSIZE

variable [Fintype Proc] {size : Int}

theorem reserve_wake (there : Place) : reserve there.wake = reserve there := by
  cases there <;> rfl

theorem reserve_le (there : Place) : reserve there ≤ MAXOPBLOCKS * there.running := by
  cases there <;> simp [reserve, Place.running]

omit [DecidableEq Proc] in
/-- Each operation in progress has at most `MAXOPBLOCKS` blocks reserved. -/
theorem reserved_le (counted : Counted s) :
    (∑ q, reserve (s.place q) : Nat) ≤ MAXOPBLOCKS * s.outstanding := by
  have each := Finset.sum_le_sum fun q (_ : q ∈ Finset.univ) => reserve_le (s.place q)
  rw [← Finset.mul_sum] at each
  rw [Counted] at counted
  rw [counted]
  exact_mod_cast each

/-- One move changes the reservations by those of the process. -/
theorem Capacity.move (h : Capacity size s) {there : Place} (size_eq : t.size = s.size)
    (place : t.place = update s.place p there)
    (lh : ∀ q op own, s.place q = .inside op own → s.lh ⊆ t.lh)
    (own : ∀ op own, there = .inside op own → own ⊆ t.lh ∧ own.length ≤ MAXOPBLOCKS)
    (room : t.lh.length + ∑ q, reserve (s.place q) + reserve there
      ≤ LOGSIZE + reserve (s.place p)) : Capacity size t := by
  constructor
  · exact size_eq.trans h.size_eq
  · intro q op own' here
    rw [place] at here
    rcases inside_update here with ⟨-, eq⟩ | ⟨-, here⟩
    · exact own op own' eq
    · obtain ⟨mem, short⟩ := h.own q op own' here
      exact ⟨fun b hb => lh q op own' here (mem hb), short⟩
  · have sum := sum_update reserve s.place p there
    rw [place]
    omega

omit [DecidableEq Proc] in
theorem Capacity.wakeup (h : Capacity size s) : Capacity size s.wakeup := by
  constructor
  · exact h.size_eq
  · intro q op own here
    exact h.own q op own (wake_eq_inside.mp here)
  · have sum := sum_wake s.place reserve_wake
    simp only [Log.wakeup]
    rw [sum]
    exact h.reserved

/-- A move out of every operation, with no more blocks in the log. -/
theorem Capacity.leave (h : Capacity size s) {there : Place}
    (aside : ∀ op own, there ≠ .inside op own) (size_eq : t.size = s.size)
    (place : t.place = update s.place p there)
    (lh : ∀ q op own, s.place q = .inside op own → s.lh ⊆ t.lh)
    (short : t.lh.length ≤ s.lh.length) : Capacity size t := by
  have nothing : reserve there = 0 := by
    cases there with
    | inside op own => exact absurd rfl (aside op own)
    | _ => rfl
  have reserved := h.reserved
  exact h.move size_eq place lh (fun op own eq => absurd eq (aside op own)) (by omega)

omit [DecidableEq Proc] in
/-- A logged block takes no more room than the operation had reserved for it. -/
theorem Capacity.logs (h : Capacity size s) {b : BlockNo} {op : Nat} {own : List BlockNo}
    (here : s.place p = .inside op own) (within : (own.insert b).length ≤ MAXOPBLOCKS) :
    (absorb s.lh b).length + reserve (.inside op (own.insert b))
      ≤ s.lh.length + reserve (s.place p) := by
  obtain ⟨mem, -⟩ := h.own p op own here
  rw [here, absorb_length]
  simp only [reserve]
  by_cases mine : b ∈ own
  · rw [List.insert_of_mem mine, if_pos (mem mine)]
  · rw [List.insert_of_not_mem mine, List.length_cons] at within ⊢
    split <;> omega

omit [Fintype Proc] in
theorem commitStep_shrinks (phase : Phase) :
    (commitStep s p phase).size = s.size ∧ (commitStep s p phase).lh.length ≤ s.lh.length := by
  cases phase with
  | start =>
    simp only [commitStep]
    split <;> exact ⟨rfl, le_rfl⟩
  | writeLog tail =>
    simp only [commitStep]
    split <;> exact ⟨rfl, le_rfl⟩
  | installTrans tail =>
    simp only [commitStep]
    split <;> exact ⟨rfl, le_rfl⟩
  | clear => exact ⟨rfl, Nat.zero_le _⟩
  | _ => exact ⟨rfl, le_rfl⟩

theorem capacity_step (h : Capacity size s) (sound : Sound s) (within : Within s e)
    (moves : Moves s e t) : Capacity size t := by
  have same : ∀ q op own, s.place q = .inside op own → s.lh ⊆ s.lh := fun _ _ _ _ _ mem => mem
  cases moves with
  | waits p free full => exact h.leave (by simp) rfl rfl same le_rfl
  | begins p free admits =>
    have before := reserved_le sound.counted
    obtain ⟨-, room⟩ := admits
    refine h.move rfl rfl same ?_ ?_
    · intro op own eq
      obtain ⟨-, rfl⟩ := Place.inside.inj eq
      exact ⟨List.nil_subset _, Nat.zero_le _⟩
    · have fresh : reserve (.inside s.nextOp []) = MAXOPBLOCKS := rfl
      simp only [fresh, MAXOPBLOCKS, LOGSIZE, Log.goTo] at before room ⊢
      omega
  | logs p b op own here room begun =>
    have within : (own.insert b).length ≤ MAXOPBLOCKS := by
      simp only [Within, here] at within
      exact within
    have grown := h.logs here within
    have reserved := h.reserved
    have wider : s.lh ⊆ absorb s.lh b := fun c mem => mem_absorb.mpr (Or.inr mem)
    refine h.move rfl rfl (fun _ _ _ _ => wider) ?_ (by simp only; omega)
    intro op' own' eq
    obtain ⟨-, rfl⟩ := Place.inside.inj eq
    refine ⟨fun c mem => ?_, within⟩
    rcases List.mem_insert_iff.mp mem with rfl | mem
    · exact mem_absorb.mpr (Or.inl rfl)
    · exact wider ((h.own p op own here).1 mem)
  | endsLast p op own here idle last => exact h.leave (by simp) rfl rfl same le_rfl
  | ends p op own here idle more =>
    exact h.wakeup.leave (by simp) rfl rfl (fun _ _ _ _ _ mem => mem) le_rfl
  | commits p phase here more =>
    obtain ⟨⟨next, place⟩, -⟩ := commitStep_along (s := s) (p := p) more
    obtain ⟨size_eq, short⟩ := commitStep_shrinks (s := s) (p := p) phase
    have nobody : ∀ q op own, s.place q ≠ .inside op own := by
      intro q op own inside
      have idle := sound.counted.not_committing sound.turns inside
      simp [sound.turns.busy p phase here] at idle
    exact h.leave (by simp) size_eq place (fun q op own inside => absurd inside (nobody q op own))
      short
  | finishes p here => exact h.wakeup.leave (by simp) rfl rfl (fun _ _ _ _ _ mem => mem) le_rfl
  | killed p here => exact h.leave (by simp) rfl rfl same le_rfl
  | nothing p => exact h

omit [DecidableEq Proc] in
/-- The operation has room reserved for a block that it logs for the first time. -/
theorem Capacity.room (h : Capacity size s) {b : BlockNo} {op : Nat} {own : List BlockNo}
    (here : s.place p = .inside op own) (within : (own.insert b).length ≤ MAXOPBLOCKS)
    (new : b ∉ s.lh) : s.lh.length < LOGSIZE := by
  have grown := h.logs here within
  rw [absorb_length, if_neg new] at grown
  have mine : reserve (s.place p) ≤ ∑ q, reserve (s.place q) :=
    le_sum reserve s.place p
  have reserved := h.reserved
  omega

theorem step_tooBig_iff {nlog : BitVec 32} (large : LOGSIZE < nlog.toNat)
    (h : Capacity nlog.toInt s) (within : Within s e) :
    step s e ≠ .error .tooBig ↔ Roomy s e := by
  cases e with
  | logWrite p b =>
    cases here : s.place p with
    | inside op own =>
      simp only [step, Roomy, Within, here] at within ⊢
      have large : LOGSIZE < s.size ∨ s.size < 0 := by
        have bound := nlog.isLt
        rw [h.size_eq, BitVec.toInt_eq_toNat_cond]
        split <;> omega
      simp only [logWrite]
      constructor
      · intro fine
        split at fine
        · exact absurd rfl fine
        · exact ⟨by omega, fun _ => by omega⟩
      · rintro ⟨positive, notFull⟩
        have room : s.lh.length < LOGSIZE := by
          by_cases old : b ∈ s.lh
          · exact notFull old
          · exact h.room here within old
        rw [if_neg (by omega)]
        split <;> simp
    | _ => simp [step, Roomy, here]
  | endOp p =>
    simp only [step, Roomy, iff_true]
    split
    · simp only [endOp]
      split
      · simp
      · split <;> simp
    · simp
  | _ =>
    simp only [step, Roomy, iff_true]
    split <;> simp

/-- In every run in which each operation logs at most `MAXOPBLOCKS` distinct
blocks, `lh.n` never exceeds `LOGSIZE`, and the panic is avoided exactly when
no block that is in the log already is logged while the log is full. -/
theorem tooBig_iff (nlog : BitVec 32) (large : LOGSIZE < nlog.toNat) (es : List (Event Proc))
    (within : Meets step Within (initlog nlog) es) :
    ((∀ ds t, ds <+: es → run step (initlog nlog) ds = .ok t → t.lh.length ≤ LOGSIZE) ∧
      run step (initlog nlog) es ≠ .error .tooBig) ↔ Meets step Roomy (initlog nlog) es := by
  have keep : ∀ (s : Log Proc) e t, Sound s ∧ Capacity nlog.toInt s → Within s e →
      step s e = .ok t → Sound t ∧ Capacity nlog.toInt t := by
    rintro s e t ⟨sound, capacity⟩ within here
    exact ⟨sound_step sound here, capacity_step capacity sound within (step_moves here)⟩
  have start : Sound (initlog nlog : Log Proc) ∧
      Capacity nlog.toInt (initlog nlog : Log Proc) := by
    refine ⟨initlog_sound nlog, rfl, ?_, ?_⟩
    · intro p op own here
      exact nomatch here
    · simp [initlog, reserve]
  have below : ∀ ds t, ds <+: es → run step (initlog nlog) ds = .ok t →
      t.lh.length ≤ LOGSIZE := by
    rintro ds t ⟨rest, rfl⟩ reached
    have kept := run_invariant keep start (meets_append.mp within).1 reached
    have reserved := kept.2.reserved
    omega
  rw [run_ne_error_iff]
  have exact_ := meets_iff_within (fun s e t inv bound _ here => keep s e t inv bound here)
    (fun s e inv bound => step_tooBig_iff large inv.2 bound) start within
  exact ⟨fun safe => exact_.mp safe.2, fun roomy => ⟨below, exact_.mpr roomy⟩⟩

/-- Three operations log ten blocks each, and one of them a block once more. -/
def threeOps : List (Event (Fin 3)) :=
  [.beginOp 0, .beginOp 1, .beginOp 2] ++
    (List.range 10).map (fun i => .logWrite 0 (BitVec.ofNat 32 (100 + i))) ++
    (List.range 10).map (fun i => .logWrite 1 (BitVec.ofNat 32 (110 + i))) ++
    (List.range 10).map (fun i => .logWrite 2 (BitVec.ofNat 32 (120 + i)))

theorem absorbed_write_panics :
    Meets step Within (initlog 31) (threeOps ++ [.logWrite 0 100]) ∧
      run step (initlog 31) (threeOps ++ [.logWrite 0 100]) = .error (.tooBig : Fault) := by
  decide +kernel

theorem tooBig_iff_threeOps :
    ((∀ ds t, ds <+: threeOps → run step (initlog 31) ds = .ok t → t.lh.length ≤ LOGSIZE) ∧
      run step (initlog 31) threeOps ≠ .error .tooBig) ↔ Meets step Roomy (initlog 31) threeOps :=
  tooBig_iff 31 (by decide) threeOps (by decide +kernel)

end LogCapacity
