import Xv6.ConsoleInput
import Xv6.Lib.Outcomes

/-!
# What is typed and what is read

The terminal as its user sees it: an unfinished line that may be edited and the text
committed so far, of which readers have taken a part. The ring of the console shows
exactly the committed text that is not taken yet, followed by the line.
-/

namespace TypedText

open ByteMemory EventRuns Function RingCounters ConsoleInput

structure Terminal where
  /-- The text of all lines that are finished, with the marks of control-d. -/
  committed : List Byte
  /-- How much of it readers have taken. -/
  taken : Nat
  /-- The line that is being typed. -/
  line : List Byte

namespace Terminal

/-- Committed text that is not taken. -/
def unread (t : Terminal) : Nat := t.committed.length - t.taken

/-- A character is typed into the line; it may finish the line. -/
def append (t : Terminal) (c : Byte) : Terminal :=
  if c = newline ∨ c = ctrlD ∨ t.unread + t.line.length + 1 = INPUT_BUF_SIZE then
    { t with committed := t.committed ++ t.line ++ [c], line := [] }
  else { t with line := t.line ++ [c] }

def type (t : Terminal) (c : Byte) : Terminal :=
  if c = ctrlP then t
  else if c = ctrlU then { t with line := [] }
  else if c = ctrlH ∨ c = delete then { t with line := t.line.dropLast }
  else if c ≠ 0 ∧ t.unread + t.line.length < INPUT_BUF_SIZE then
    t.append (if c = carriageReturn then newline else c)
  else t

def note (t : Terminal) : Mark → Terminal
  | .typed c => t.type c
  | .taken => { t with taken := t.taken + 1 }

/-- The terminal after what a history records. -/
def replay (history : List Mark) : Terminal := history.foldl note ⟨[], 0, []⟩

@[simp] theorem replay_concat (history : List Mark) (m : Mark) :
    replay (history ++ [m]) = (replay history).note m := by
  simp [replay]

/-- The text given to readers: what they have taken, without the marks. -/
def text (t : Terminal) : List Byte := (t.committed.take t.taken).filter fun c => c ≠ ctrlD

end Terminal

/-- What is in the ring for what the user sees. -/
structure Shows (k : Cons) (t : Terminal) : Prop where
  taken : t.taken ≤ t.committed.length
  unread : span k.r k.w = t.unread
  line : span k.w k.e = t.line.length
  room : t.unread + t.line.length ≤ INPUT_BUF_SIZE
  text : window INPUT_BUF_SIZE k.buf k.r (t.unread + t.line.length) =
    t.committed.drop t.taken ++ t.line
  unfinished : newline ∉ t.line

variable {k : Cons} {t : Terminal}

theorem divides : INPUT_BUF_SIZE ∣ 2 ^ 32 := by decide

theorem Shows.e_eq (shows_ : Shows k t) :
    k.e = k.r + BitVec.ofNat 32 (t.unread + t.line.length) := by
  rw [BitVec.ofNat_add, ← BitVec.add_assoc, ← shows_.unread, add_span, ← shows_.line, add_span]

theorem Shows.span_e (shows_ : Shows k t) : span k.r k.e = t.unread + t.line.length := by
  have small : INPUT_BUF_SIZE < 2 ^ 32 := by decide
  have := shows_.room
  rw [shows_.e_eq, span_add k.r (by omega)]

theorem Shows.line_nil (shows_ : Shows k t) : k.e = k.w ↔ t.line = [] := by
  rw [← List.length_eq_zero_iff, ← shows_.line, span_eq_zero, eq_comm]

/-- The last character of the line is before the edit index. -/
theorem Shows.erase (shows_ : Shows k t) {l : List Byte} {x : Byte} (line : t.line = l ++ [x]) :
    k.last = x ∧ Shows { k with e := k.e - 1 } { t with line := l } := by
  have length : t.line.length = l.length + 1 := by simp [line]
  have whole := shows_.text
  rw [length, ← Nat.add_assoc, window_succ, line, ← List.append_assoc] at whole
  obtain ⟨text, last⟩ := List.append_inj' whole rfl
  have before : k.e - 1 = k.r + BitVec.ofNat 32 (t.unread + l.length) := by
    rw [shows_.e_eq, length, ← Nat.add_assoc, BitVec.ofNat_add _ 1, ← BitVec.add_assoc]
    exact BitVec.add_sub_cancel _ _
  refine ⟨?_, shows_.taken, shows_.unread, ?_, ?_, text, ?_⟩
  · rw [Cons.last, before]
    exact List.singleton_inj.mp last
  · have apart : k.w ≠ k.e := by
      intro same
      have empty := shows_.line_nil.mp same.symm
      simp [line] at empty
    have := span_back apart
    have := shows_.line
    simp only
    omega
  · have := shows_.room
    simp only [Terminal.unread] at this ⊢
    omega
  · intro new
    exact shows_.unfinished (line ▸ List.mem_append_left _ new)

/-- Kill line takes back the whole line. -/
theorem Shows.kill (shows_ : Shows k t) : Shows k.killLine { t with line := [] } := by
  have rounds (l : List Byte) : ∀ {k : Cons} {t : Terminal}, Shows k t → t.line = l →
      Shows (Cons.killFrom l.length k) { t with line := [] } := by
    induction l using List.reverseRecOn with
    | nil =>
      intro k t shows_ line
      obtain ⟨committed, taken, _⟩ := t
      subst line
      exact shows_
    | append_singleton l x ih =>
      intro k t shows_ line
      obtain ⟨last, erased⟩ := shows_.erase line
      have more : k.e ≠ k.w ∧ k.last ≠ newline := by
        constructor
        · intro same
          have empty := shows_.line_nil.mp same
          simp [line] at empty
        · rintro new
          apply shows_.unfinished
          rw [line, ← new, last]
          exact List.mem_append_right _ (List.mem_singleton_self x)
      rw [List.length_append, List.length_singleton, Cons.killFrom, if_pos more]
      exact ih (t := { t with line := l }) erased rfl
  rw [Cons.killLine, shows_.line]
  exact rounds t.line shows_ rfl

/-- A character goes behind the line. -/
theorem Shows.store (shows_ : Shows k t) (c : Byte)
    (less : t.unread + t.line.length < INPUT_BUF_SIZE) :
    span (k.store c).r (k.store c).e = t.unread + t.line.length + 1 ∧
      window INPUT_BUF_SIZE (k.store c).buf k.r (t.unread + t.line.length + 1) =
        t.committed.drop t.taken ++ t.line ++ [c] := by
  have small : INPUT_BUF_SIZE < 2 ^ 32 := by decide
  constructor
  · have := shows_.span_e
    rw [← shows_.span_e]
    exact span_succ (a := k.r) (by omega)
  · have pushed := window_push (a := k.r) (d := k.buf) divides c less
    rw [← shows_.e_eq, shows_.text] at pushed
    exact pushed

/-- What the handler does with a character that is neither refused nor an edit. -/
theorem Shows.append (shows_ : Shows k t) {c : Byte}
    (less : t.unread + t.line.length < INPUT_BUF_SIZE) :
    Shows (if c = newline ∨ c = ctrlD ∨ span (k.store c).r (k.store c).e = INPUT_BUF_SIZE then
      { k.store c with w := (k.store c).e } else k.store c) (t.append c) := by
  obtain ⟨length, text⟩ := shows_.store c less
  have taken := shows_.taken
  rw [length, Terminal.append]
  split
  · have unread : { t with committed := t.committed ++ t.line ++ [c], line := [] }.unread =
        t.unread + t.line.length + 1 := by
      simp only [Terminal.unread, List.length_append, List.length_singleton]
      omega
    constructor
    · simp only [List.length_append]
      omega
    · rw [unread]
      exact length
    · simp
    · rw [unread]
      simp only [List.length_nil]
      omega
    · rw [unread, List.append_nil, List.length_nil, Nat.add_zero, List.append_assoc,
        List.drop_append_of_le_length taken, ← List.append_assoc]
      exact text
    · simp
  · rename_i unfinished
    have new : c ≠ newline := fun same => unfinished (.inl same)
    constructor
    · exact taken
    · exact shows_.unread
    · have same : k.w + BitVec.ofNat 32 t.line.length = k.e := by rw [← shows_.line, add_span]
      have small : INPUT_BUF_SIZE < 2 ^ 32 := by decide
      have := span_succ (a := k.w) (b := k.e) (by rw [shows_.line]; omega)
      rw [shows_.line] at this
      simpa [Cons.store] using this
    · simp only [List.length_append, List.length_singleton, Terminal.unread] at less ⊢
      omega
    · rw [List.length_append, List.length_singleton, ← Nat.add_assoc, ← List.append_assoc]
      exact text
    · simp only [List.mem_append, List.mem_singleton, not_or]
      exact ⟨shows_.unfinished, Ne.symm new⟩

/-- A reader takes the first committed character. -/
theorem Shows.take (shows_ : Shows k t) (some : k.r ≠ k.w) :
    Shows { k with r := k.r + 1 } { t with taken := t.taken + 1 } ∧
      ∃ l, t.committed.drop t.taken = k.front :: l := by
  have fewer := span_pred some
  have unread := shows_.unread
  have less : t.taken < t.committed.length := by
    simp only [Terminal.unread] at unread
    omega
  have text := shows_.text
  have one : t.unread = { t with taken := t.taken + 1 }.unread + 1 := by
    simp only [Terminal.unread]
    omega
  rw [one, Nat.add_right_comm, window_cons, List.drop_eq_getElem_cons less,
    List.cons_append] at text
  obtain ⟨head, tail⟩ := List.cons_eq_cons.mp text
  refine ⟨⟨less, ?_, shows_.line, ?_, tail, shows_.unfinished⟩, ?_⟩
  · simp only
    omega
  · have := shows_.room
    simp only
    omega
  · exact ⟨_, by rw [List.drop_eq_getElem_cons less, Cons.front, head]⟩

variable {Proc : Type} {s u : State Proc}

structure Inv (s : State Proc) : Prop where
  shows_ : Shows s.cons (Terminal.replay s.history)
  delivered : s.delivered = (Terminal.replay s.history).text

/-- A user copy of the step succeeds. -/
def Copies (_ : State Proc) : Event Proc → Prop
  | .go _ copy => copy = true
  | _ => True

instance (s : State Proc) : ∀ e, Decidable (Copies s e)
  | .go _ copy => inferInstanceAs (Decidable (copy = true))
  | .typed _ | .consoleread _ _ | .kill _ => isTrue trivial

theorem accept_shows {t : Terminal} {c : Byte} (shows_ : Shows s.cons t)
    (less : t.unread + t.line.length < INPUT_BUF_SIZE) : Shows (accept s c).cons (t.append c) := by
  have added := shows_.append (c := c) less
  simp only [accept]
  split
  · rename_i commits
    rwa [if_pos commits] at added
  · rename_i unfinished
    rwa [if_neg unfinished] at added

theorem input_shows {t : Terminal} (c : Byte) (shows_ : Shows s.cons t) :
    Shows (input s c).cons (t.type c) := by
  unfold input Terminal.type
  split
  · exact shows_
  · split
    · exact shows_.kill
    · split
      · split
        · rename_i apart
          have some : t.line ≠ [] := fun empty => apart (shows_.line_nil.mpr empty)
          exact (shows_.erase (List.dropLast_append_getLast some).symm).2
        · rename_i same
          have empty := shows_.line_nil.mp (not_not.mp same)
          obtain ⟨committed, taken, _⟩ := t
          subst empty
          exact shows_
      · rw [shows_.span_e]
        split
        · rename_i accepted
          exact accept_shows shows_ accepted.2
        · exact shows_

theorem input_kept (s : State Proc) (c : Byte) :
    (input s c).delivered = s.delivered ∧ (input s c).history = s.history := by
  unfold input
  split
  · exact ⟨rfl, rfl⟩
  · split
    · exact ⟨rfl, rfl⟩
    · split
      · split
        · exact ⟨rfl, rfl⟩
        · exact ⟨rfl, rfl⟩
      · split
        · simp only [accept]
          generalize (if c = carriageReturn then newline else c) = d
          split
          · exact ⟨rfl, rfl⟩
          · exact ⟨rfl, rfl⟩
        · exact ⟨rfl, rfl⟩

/-- Typing changes neither the taken text nor what will be read of the committed text. -/
theorem text_type {t : Terminal} (c : Byte) (taken : t.taken ≤ t.committed.length) :
    (t.type c).text = t.text := by
  unfold Terminal.type
  split
  · rfl
  · split
    · rfl
    · split
      · rfl
      · split
        · generalize (if c = carriageReturn then newline else c) = d
          unfold Terminal.append
          split
          · simp only [Terminal.text, List.append_assoc, List.take_append_of_le_length taken]
          · rfl
        · rfl

/-- The text after one more character is taken. -/
theorem text_taken {t : Terminal} {c : Byte} {l : List Byte}
    (first : t.committed.drop t.taken = c :: l) :
    { t with taken := t.taken + 1 }.text = t.text ++ if c = ctrlD then [] else [c] := by
  have here : t.committed[t.taken]? = some c := by
    rw [← List.head?_drop, first]
    rfl
  simp only [Terminal.text, List.take_add_one, here, Option.toList_some, List.filter_append]
  congr 1
  by_cases mark : c = ctrlD
  · simp [mark]
  · simp [mark]

/-- A reader takes a character out of the ring. -/
theorem Inv.take (inv : Inv s) (some : s.cons.r ≠ s.cons.w) {c : Byte} (front : s.cons.front = c) :
    Shows s.take.cons (Terminal.replay s.take.history) ∧
      s.delivered ++ (if c = ctrlD then [] else [c]) =
        (Terminal.replay s.take.history).text := by
  obtain ⟨shown, l, first⟩ := inv.shows_.take some
  rw [front] at first
  have history : Terminal.replay s.take.history =
      { Terminal.replay s.history with taken := (Terminal.replay s.history).taken + 1 } := by
    simp [State.take, Terminal.note]
  rw [history, text_taken first, inv.delivered]
  exact ⟨shown, rfl⟩

/-- Where a step leaves the ring and the history alone. -/
theorem Inv.same (inv : Inv s) (cons : u.cons = s.cons) (history : u.history = s.history)
    (delivered : u.delivered = s.delivered) : Inv u := by
  constructor
  · rw [cons, history]
    exact inv.shows_
  · rw [delivered, history]
    exact inv.delivered

section Steps

variable [DecidableEq Proc]

theorem consoleread_inv (inv : Inv s) (p : Proc) (target n : Nat) :
    Inv (consoleread s p target n true) := by
  unfold consoleread
  split
  · exact inv.same rfl rfl rfl
  · split
    · split
      · exact inv.same rfl rfl rfl
      · exact inv.same rfl rfl rfl
    · rename_i some
      simp only
      split
      · rename_i mark
        split
        · refine inv.same ?_ rfl rfl
          simp only [State.leave, State.goTo, BitVec.add_sub_cancel]
        · obtain ⟨shown, text⟩ := inv.take some mark
          rw [if_pos rfl, List.append_nil] at text
          exact ⟨shown, text⟩
      · rename_i plain
        obtain ⟨shown, text⟩ := inv.take some rfl
        rw [if_neg plain] at text
        split
        · rename_i failed
          cases failed
        · split
          · exact ⟨shown, text⟩
          · exact ⟨shown, text⟩

theorem acquire_inv (inv : Inv s) {p : Proc} {pc : Pc} (h : acquire s p pc = .ok u) : Inv u := by
  unfold acquire at h
  split at h
  · cases h
  · cases h
    exact inv.same rfl rfl rfl

theorem inv_step {e : Event Proc} (inv : Inv s) (copies : Copies s e) (h : step s e = .ok u) :
    Inv u := by
  cases e with
  | typed c =>
    simp only [step] at h
    split at h
    · cases h
    · cases h
      constructor
      · simp only [consoleintr, Terminal.replay_concat, Terminal.note]
        exact input_shows c inv.shows_
      · simp only [consoleintr, Terminal.replay_concat, Terminal.note,
          text_type c inv.shows_.taken, (input_kept s c).1]
        exact inv.delivered
  | consoleread p n =>
    simp only [step] at h
    split at h
    · exact acquire_inv inv h
    · cases h
  | go p copy =>
    simp only [step] at h
    split at h
    · cases h
    · cases h
      cases copies
      exact consoleread_inv inv p _ _
    · split at h
      · cases h
      · exact acquire_inv inv h
  | kill p =>
    cases h
    exact inv.same rfl rfl rfl

end Steps

theorem inv_fresh : Inv (fresh : State Proc) := by
  refine ⟨⟨le_rfl, ?_, ?_, ?_, ?_, ?_⟩, ?_⟩ <;> simp [fresh, Terminal.replay, Terminal.unread,
    Terminal.text]

/-- The characters that edit the line. -/
def Edits (c : Byte) : Prop := c = ctrlU ∨ c = ctrlH ∨ c = delete

theorem killFrom_keeps (rounds : Nat) (k : Cons) :
    (k.killFrom rounds).buf = k.buf ∧ (k.killFrom rounds).r = k.r ∧
      (k.killFrom rounds).w = k.w := by
  induction rounds generalizing k with
  | zero => exact ⟨rfl, rfl, rfl⟩
  | succ rounds ih =>
    rw [Cons.killFrom]
    split
    · exact ih _
    · exact ⟨rfl, rfl, rfl⟩

theorem edits_keep {c : Byte} (edits : Edits c) (s : State Proc) :
    (input s c).cons.buf = s.cons.buf ∧ (input s c).cons.r = s.cons.r ∧
      (input s c).cons.w = s.cons.w := by
  unfold input
  split
  · exact ⟨rfl, rfl, rfl⟩
  · split
    · exact killFrom_keeps _ s.cons
    · rename_i noKill
      have erase : c = ctrlH ∨ c = delete := by
        rcases edits with kill | erase
        · exact absurd kill noKill
        · exact erase
      rw [if_pos erase]
      split
      · exact ⟨rfl, rfl, rfl⟩
      · exact ⟨rfl, rfl, rfl⟩

/-- What is between the read and the write index. -/
def Cons.unread (k : Cons) : List Byte := window INPUT_BUF_SIZE k.buf k.r (span k.r k.w)

theorem Shows.unread_eq {k : Cons} {t : Terminal} (shows_ : Shows k t) :
    Cons.unread k = t.committed.drop t.taken := by
  have text := shows_.text
  rw [window_add] at text
  have length : (window INPUT_BUF_SIZE k.buf k.r t.unread).length =
      (t.committed.drop t.taken).length := by
    rw [window_length, List.length_drop]
    rfl
  rw [Cons.unread, shows_.unread]
  exact (List.append_inj text length).1

/-- The indices are in order and at most a ring apart; what readers got is the committed text they
have taken, without the marks, and the ring still has the rest of it; and no edit touches that
rest. -/
theorem readers_get_committed [DecidableEq Proc] (es : List (Event Proc)) {s : State Proc}
    (copies : Meets step Copies fresh es) (h : run step fresh es = .ok s) :
    (span s.cons.r s.cons.w + span s.cons.w s.cons.e = span s.cons.r s.cons.e ∧
      span s.cons.r s.cons.e ≤ INPUT_BUF_SIZE) ∧
    s.delivered = (Terminal.replay s.history).text ∧
    Cons.unread s.cons =
      (Terminal.replay s.history).committed.drop (Terminal.replay s.history).taken ∧
    ∀ c, Edits c → (consoleintr s c).cons.r = s.cons.r ∧ (consoleintr s c).cons.w = s.cons.w ∧
      Cons.unread (consoleintr s c).cons = Cons.unread s.cons := by
  have inv : Inv s :=
    run_invariant (fun s e t inv copies h => inv_step inv copies h) inv_fresh copies h
  have shown := inv.shows_
  refine ⟨⟨?_, ?_⟩, inv.delivered, shown.unread_eq, ?_⟩
  · rw [shown.unread, shown.line, shown.span_e]
  · rw [shown.span_e]
    exact shown.room
  · intro c edits
    obtain ⟨buf, r, w⟩ := edits_keep edits s
    refine ⟨r, w, ?_⟩
    simp only [Cons.unread, consoleintr, buf, r, w]

/-- A typing error is taken back, and a line is read in two calls. -/
def corrected : List (Event Bool) :=
  [.typed 0x61, .typed 0x78, .typed 0x7f, .typed 0x62, .typed carriageReturn,
    .consoleread false 2, .go false true, .go false true, .go false true,
    .consoleread true 2, .go true true]

theorem readers_get_committed_corrected : ∃ s, run step fresh corrected = .ok s ∧
    s.delivered = [0x61, 0x62, newline] ∧
      s.delivered = (Terminal.replay s.history).text := by
  have copies : Meets step Copies fresh corrected := by decide +kernel
  have ran : Outcomes.Yields (run step fresh corrected)
      fun s => s.delivered = [0x61, 0x62, newline] := by decide +kernel
  obtain ⟨s, h, delivered⟩ := ran
  exact ⟨s, h, delivered, (readers_get_committed corrected copies h).2.1⟩

end TypedText
