import Mathlib.Logic.Function.Basic

/-!
# Computations that a crash may cut short

A machine has a state, part of which survives a crash, and makes durable
writes one at a time. A computation is run with the number of durable writes
it may still make: at the write after the last of these the machine stops and
leaves the state it stopped in. Quantifying over that number is quantifying
over the crash point.

`Ensures m Q C s` says that from `s` the computation ends with a result and a
state that satisfy `Q`, and that at every crash point its state satisfies `C`.
-/

namespace Crashes

variable {S A B : Type}

def Crashing (S A : Type) := S → Nat → Except S (A × S × Nat)

instance monadCrashing : Monad (Crashing S) where
  pure a := fun s k => .ok (a, s, k)
  bind m f := fun s k => match m s k with
    | .ok (a, t, j) => f a t j
    | .error t => .error t

/-- A change of the state that no crash can come before: it is undone with the
volatile state or not seen at all. -/
def act (f : S → S) : Crashing S Unit := fun s k => .ok ((), f s, k)

def ask (f : S → A) : Crashing S A := fun s k => .ok (f s, s, k)

/-- One atomic durable write. -/
def write (f : S → S) : Crashing S Unit
  | s, 0 => .error s
  | s, k + 1 => .ok ((), f s, k)

/-- The rounds `0`, …, `n - 1` of a loop. -/
def rounds : Nat → (Nat → Crashing S Unit) → Crashing S Unit
  | 0, _ => pure ()
  | n + 1, f => do
    rounds n f
    f n

/-- The state in which the machine stops: at the crash point, or after the end. -/
def stopped (m : Crashing S A) (s : S) (k : Nat) : S :=
  match m s k with
  | .ok (_, t, _) => t
  | .error t => t

/-- The state after a run that was not cut short. -/
def ended (m : Crashing S A) (s : S) (k : Nat) : Option S :=
  match m s k with
  | .ok (_, t, _) => some t
  | .error _ => none

def Ensures (m : Crashing S A) (Q : A → S → Prop) (C : S → Prop) (s : S) : Prop :=
  ∀ k, match m s k with
    | .ok (a, t, _) => Q a t
    | .error t => C t

/-- With enough writes left the computation comes to its end, and leaves the
rest of them. -/
def Ends (m : Crashing S A) (s : S) : Prop := ∃ a t n, ∀ j, m s (n + j) = .ok (a, t, j)

variable {Q : A → S → Prop} {C : S → Prop} {s : S}

theorem ensures_pure {a : A} (h : Q a s) : Ensures (pure a) Q C s := fun _ => h

theorem ensures_act {f : S → S} {Q : Unit → S → Prop} (h : Q () (f s)) :
    Ensures (act f) Q C s := fun _ => h

theorem ensures_ask {f : S → A} (h : Q (f s) s) : Ensures (ask f) Q C s := fun _ => h

/-- Before a durable write the machine may stop, after it the write is there. -/
theorem ensures_write {f : S → S} {Q : Unit → S → Prop} (before : C s) (after : Q () (f s)) :
    Ensures (write f) Q C s := by
  intro k
  cases k with
  | zero => exact before
  | succ k => exact after

theorem ensures_bind {m : Crashing S A} {f : A → Crashing S B} {R : B → S → Prop}
    (h : Ensures m (fun a t => Ensures (f a) R C t) C s) : Ensures (m >>= f) R C s := by
  intro k
  have first := h k
  simp only [bind]
  cases heq : m s k with
  | ok r =>
    rw [heq] at first
    exact first r.2.2
  | error t =>
    rw [heq] at first
    exact first

theorem ensures_act_bind {f : S → S} {m : Unit → Crashing S B} {R : B → S → Prop}
    (h : Ensures (m ()) R C (f s)) : Ensures (act f >>= m) R C s :=
  ensures_bind (ensures_act h)

theorem ensures_ask_bind {f : S → A} {m : A → Crashing S B} {R : B → S → Prop}
    (h : Ensures (m (f s)) R C s) : Ensures (ask f >>= m) R C s :=
  ensures_bind (ensures_ask h)

theorem ensures_write_bind {f : S → S} {m : Unit → Crashing S B} {R : B → S → Prop}
    (before : C s) (after : Ensures (m ()) R C (f s)) : Ensures (write f >>= m) R C s :=
  ensures_bind (ensures_write before after)

theorem Ensures.mono {m : Crashing S A} {Q' : A → S → Prop} {C' : S → Prop}
    (h : Ensures m Q C s) (post : ∀ a t, Q a t → Q' a t) (crash : ∀ t, C t → C' t) :
    Ensures m Q' C' s := by
  intro k
  have here := h k
  split at here
  · exact post _ _ here
  · exact crash _ here

/-- The loop rule: an invariant of the number of rounds done. -/
theorem ensures_rounds {f : Nat → Crashing S Unit} {I : Nat → S → Prop} {n : Nat}
    (round : ∀ i t, i < n → I i t → Ensures (f i) (fun _ => I (i + 1)) C t) (start : I 0 s) :
    Ensures (rounds n f) (fun _ => I n) C s := by
  induction n with
  | zero => exact ensures_pure start
  | succ n ih =>
    apply ensures_bind
    have before := ih fun i t hi => round i t (Nat.lt_succ_of_lt hi)
    exact before.mono (fun _ t here => round n t (Nat.lt_succ_self n) here) fun _ h => h

theorem Ensures.ended {m : Crashing S A} (h : Ensures m Q C s) {k : Nat} {t : S}
    (done : ended m s k = some t) : ∃ a, Q a t := by
  have here := h k
  unfold Crashes.ended at done
  cases heq : m s k with
  | ok r =>
    rw [heq] at here done
    exact ⟨r.1, Option.some.inj done ▸ here⟩
  | error x =>
    rw [heq] at done
    exact nomatch done

/-- Wherever the machine stops, when the end is one of the crash points. -/
theorem Ensures.stopped {m : Crashing S A} (h : Ensures m Q C s) (last : ∀ a t, Q a t → C t)
    (k : Nat) : C (stopped m s k) := by
  have here := h k
  unfold Crashes.stopped
  cases heq : m s k with
  | ok r =>
    rw [heq] at here
    exact last _ _ here
  | error x =>
    rw [heq] at here
    exact here

theorem ends_pure (a : A) (s : S) : Ends (pure a) s :=
  ⟨a, s, 0, fun j => by rw [Nat.zero_add]; rfl⟩

theorem ends_act (f : S → S) (s : S) : Ends (act f) s :=
  ⟨(), f s, 0, fun j => by rw [Nat.zero_add]; rfl⟩

theorem ends_ask (f : S → A) (s : S) : Ends (ask f) s :=
  ⟨f s, s, 0, fun j => by rw [Nat.zero_add]; rfl⟩

theorem ends_write (f : S → S) (s : S) : Ends (write f) s :=
  ⟨(), f s, 1, fun j => by rw [Nat.add_comm]; rfl⟩

theorem Ends.bind {m : Crashing S A} {f : A → Crashing S B} (first : Ends m s)
    (next : ∀ a t, Ends (f a) t) : Ends (m >>= f) s := by
  obtain ⟨a, t, n, hm⟩ := first
  obtain ⟨b, u, l, hf⟩ := next a t
  refine ⟨b, u, n + l, fun j => ?_⟩
  simp only [Bind.bind, Nat.add_assoc, hm (l + j)]
  exact hf j

theorem ends_rounds {f : Nat → Crashing S Unit} (round : ∀ i t, Ends (f i) t) (n : Nat) (s : S) :
    Ends (rounds n f) s := by
  induction n with
  | zero => exact ends_pure () s
  | succ n ih => exact ih.bind fun _ t => round n t

theorem Ends.ended {m : Crashing S A} (h : Ends m s) : ∃ k t, ended m s k = some t := by
  obtain ⟨a, t, n, hm⟩ := h
  have whole := hm 0
  rw [Nat.add_zero] at whole
  exact ⟨n, t, by simp only [Crashes.ended, whole]⟩

end Crashes
