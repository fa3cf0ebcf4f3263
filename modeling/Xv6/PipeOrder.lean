import Xv6.Lib.Outcomes
import Xv6.PipeCalls

/-!
# The bytes of a pipe stay in order

With user copies that succeed, the bytes given to readers followed by those in the
ring are the bytes that writers have stored. The counters may wrap. A write that
fits when it starts finds the ring never full, so it keeps the lock of the pipe and
its bytes are next to each other.
-/

namespace PipeOrder

open ByteMemory EventRuns Function PipeCalls RingCounters

variable {n : Nat} {s t : State n} {e : Event n}

/-- A user copy of the step succeeds. -/
def Copies (_ : State n) : Event n → Prop
  | .go _ copy => copy = true
  | _ => True

instance (s : State n) : ∀ e, Decidable (Copies s e)
  | .go _ copy => inferInstanceAs (Decidable (copy = true))
  | .pipewrite _ _ | .piperead _ _ | .pipeclose _ _ | .kill _ => isTrue trivial

/-- `nwrite - nread` modulo `2 ^ 32`. -/
def used (pi : Pipe) : Nat := span pi.nread pi.nwrite

/-- The bytes in the ring. -/
def contents (pi : Pipe) : List Byte := window PIPESIZE pi.data pi.nread (used pi)

theorem divides : PIPESIZE ∣ 2 ^ 32 := by decide

theorem full_iff (pi : Pipe) : pi.full ↔ used pi = PIPESIZE := eq_add_iff (by decide)

theorem empty_iff (pi : Pipe) : pi.empty ↔ used pi = 0 := span_eq_zero.symm

theorem used_store {pi : Pipe} {ch : Byte} (room : used pi < PIPESIZE) :
    used (pi.store ch) = used pi + 1 := by
  have small : PIPESIZE < 2 ^ 32 := by decide
  have : span pi.nread pi.nwrite + 1 < 2 ^ 32 := by
    unfold used at room
    omega
  exact span_succ this

theorem contents_store {pi : Pipe} {ch : Byte} (room : used pi < PIPESIZE) :
    contents (pi.store ch) = contents pi ++ [ch] := by
  have pushed := window_push (a := pi.nread) (d := pi.data) divides ch room
  rw [used, add_span] at pushed
  rw [contents, used_store room]
  exact pushed

theorem used_remove {pi : Pipe} (some : ¬ pi.empty) : used pi.remove + 1 = used pi := span_pred some

theorem contents_remove {pi : Pipe} (some : ¬ pi.empty) :
    contents pi = pi.front :: contents pi.remove := by
  rw [contents, ← used_remove some, window_cons]
  rfl

structure Queue (s : State n) : Prop where
  small : used s.pipe ≤ PIPESIZE
  order : s.handed ++ contents s.pipe = s.stored

/-- A step that leaves bytes and counters alone. -/
theorem Queue.stay (queue : Queue s) (data : t.pipe.data = s.pipe.data)
    (nread : t.pipe.nread = s.pipe.nread) (nwrite : t.pipe.nwrite = s.pipe.nwrite)
    (stored : t.stored = s.stored) (handed : t.handed = s.handed) : Queue t := by
  have same : used t.pipe = used s.pipe := by rw [used, used, nread, nwrite]
  constructor
  · rw [same]
    exact queue.small
  · rw [contents, same, data, nread, stored, handed]
    exact queue.order

theorem queue_step (queue : Queue s) (copies : Copies s e) (move : Move s e t) : Queue t := by
  cases move with
  | stores at_ byte opened room =>
    have less : used s.pipe < PIPESIZE := by
      have := queue.small
      have : used s.pipe ≠ PIPESIZE := fun same => room ((full_iff s.pipe).mpr same)
      omega
    constructor
    · simp only [used_store less]
      omega
    · change s.handed ++ contents (s.pipe.store _) = s.stored ++ [_]
      rw [contents_store less, ← List.append_assoc, queue.order]
  | removes at_ some =>
    have fewer := used_remove some
    constructor
    · have := queue.small
      simp only
      omega
    · change s.handed ++ [s.pipe.front] ++ contents s.pipe.remove = s.stored
      rw [← queue.order, contents_remove some, List.append_assoc, List.singleton_append]
  | drops at_ some => cases copies
  | @closes p writable free at_ => cases writable <;> exact queue.stay rfl rfl rfl rfl rfl
  | @resumes p copy chan k after at_ past =>
    cases after with
    | sleep w => exact queue.stay rfl rfl rfl rfl rfl
    | wrote w => exact queue.stay rfl rfl rfl rfl rfl
    | read i => exact queue.stay rfl rfl rfl rfl rfl
    | closed => exact queue.stay rfl rfl rfl rfl rfl
  | acquires free call => exact queue.stay rfl rfl rfl rfl rfl
  | ends at_ => exact queue.stay rfl rfl rfl rfl rfl
  | gaveUp at_ left why => exact queue.stay rfl rfl rfl rfl rfl
  | full at_ left opened full => exact queue.stay rfl rfl rfl rfl rfl
  | readKilled at_ => exact queue.stay rfl rfl rfl rfl rfl
  | readSleeps at_ none opened => exact queue.stay rfl rfl rfl rfl rfl
  | readStarts at_ => exact queue.stay rfl rfl rfl rfl rfl
  | readEnds at_ => exact queue.stay rfl rfl rfl rfl rfl
  | skips at_ => exact queue.stay rfl rfl rfl rfl rfl
  | rouses at_ other unlocked => exact queue.stay rfl rfl rfl rfl rfl
  | falls at_ => exact queue.stay rfl rfl rfl rfl rfl
  | kill unlocked => exact queue.stay rfl rfl rfl rfl rfl

/-- The bytes that a fitting write has stored so far are next to each other. -/
def Contiguous (stored : List Byte) (w : Write) : Prop :=
  w.fits = true → w.start + w.count ≤ stored.length ∧
    (stored.drop w.start).take w.count = w.bytes.take w.count

/-- A fitting write at the test of its loop has stored the latest bytes and finds room for
the rest. -/
def Latest (s : State n) (w : Write) : Prop :=
  w.fits = true → w.start + w.count = s.stored.length ∧ w.count ≤ w.bytes.length ∧
    s.stored.drop w.start = w.bytes.take w.count ∧
    used s.pipe + (w.bytes.length - w.count) ≤ PIPESIZE

theorem Latest.contiguous {w : Write} (latest : Latest s w) : Contiguous s.stored w := by
  intro fits
  obtain ⟨length, -, bytes, -⟩ := latest fits
  refine ⟨by omega, ?_⟩
  rw [bytes, List.take_take, min_self]

theorem Contiguous.grow {stored : List Byte} {w : Write} (h : Contiguous stored w) (ch : Byte) :
    Contiguous (stored ++ [ch]) w := by
  intro fits
  obtain ⟨inside, bytes⟩ := h fits
  refine ⟨by simp; omega, ?_⟩
  rw [List.drop_append_of_le_length (by omega), List.take_append_of_le_length, bytes]
  rw [List.length_drop]
  omega

/-- What holds of a write in progress: one that has slept did not fit. -/
def Placed (s : State n) : Pc → Prop
  | .writing w => Latest s w
  | .waking _ _ (.wrote w) => Contiguous s.stored w
  | .waking _ _ (.sleep w) | .drowsy _ (.writing w) | .sleeping _ (.writing w) => w.fits = false
  | _ => True

structure Whole (s : State n) : Prop where
  placed : ∀ p, Placed s (s.pc p)
  finished : ∀ w ∈ s.finished, Contiguous s.stored w

theorem latest_called (s : State n) (bytes : List Byte) (small : used s.pipe ≤ PIPESIZE) :
    Latest s (called s.pipe bytes s.stored.length) := by
  intro fits
  have short : bytes.length ≤ PIPESIZE - used s.pipe := of_decide_eq_true fits
  simp only [called]
  refine ⟨by omega, by omega, ?_, by omega⟩
  rw [List.drop_length, List.take_zero]

theorem latest_stored {w : Write} {ch : Byte} (latest : Latest s w)
    (byte : w.bytes[w.count]? = some ch) {p : Fin n} (room : used s.pipe < PIPESIZE) :
    Latest { s.goTo p (.writing { w with count := w.count + 1 }) with
      pipe := s.pipe.store ch, stored := s.stored ++ [ch] } { w with count := w.count + 1 } := by
  intro fits
  obtain ⟨length, -, bytes, space⟩ := latest fits
  obtain ⟨left, here⟩ := List.getElem?_eq_some_iff.mp byte
  refine ⟨by simp; omega, by simp only; omega, ?_, ?_⟩
  · simp only
    rw [List.drop_append_of_le_length (by omega), bytes, List.take_add_one, byte]
    rfl
  · simp only [used_store room]
    omega

/-- Where no byte is stored and none given up, only the place of one process changes. -/
theorem Whole.stay (whole : Whole s) {p : Fin n} {pc : Pc} (there : t.pc = update s.pc p pc)
    (placed : Placed t pc) (pipe : used t.pipe = used s.pipe) (stored : t.stored = s.stored)
    (finished : ∀ w ∈ t.finished, w ∈ s.finished ∨ Contiguous s.stored w) : Whole t := by
  have same (pc : Pc) : Placed t pc ↔ Placed s pc := by
    unfold Placed Latest
    rw [pipe, stored]
  constructor
  · intro q
    rw [there]
    by_cases here : q = p
    · subst here
      rwa [update_self]
    · rw [update_of_ne here, same]
      exact whole.placed q
  · intro w old
    rw [stored]
    rcases finished w old with old | fine
    · exact whole.finished w old
    · exact fine

/-- A process that changes the pipe has its lock, so no other one is at the test of its loop. -/
theorem Whole.change (whole : Whole s) (mutual_ : Mutual s) {p : Fin n} {pc : Pc}
    (holds : (s.pc p).holds = true) (there : t.pc = update s.pc p pc) (placed : Placed t pc)
    (stored : t.stored = s.stored ∨ ∃ ch, t.stored = s.stored ++ [ch])
    (finished : t.finished = s.finished) : Whole t := by
  have grown {w : Write} (h : Contiguous s.stored w) : Contiguous t.stored w := by
    rcases stored with same | ⟨ch, longer⟩
    · rwa [same]
    · rw [longer]
      exact h.grow ch
  constructor
  · intro q
    rw [there]
    by_cases here : q = p
    · subst here
      rwa [update_self]
    · rw [update_of_ne here]
      have old := whole.placed q
      have free : (s.pc q).holds ≠ true := fun also => here (mutual_.alone injective_id holds also)
      generalize s.pc q = pc' at old free
      cases pc' with
      | writing w => exact absurd rfl free
      | waking chan k after => exact absurd rfl free
      | idle => exact old
      | reading count => exact old
      | copying count i => exact old
      | drowsy chan back => cases back <;> exact old
      | sleeping chan back => cases back <;> exact old
  · intro w old
    rw [finished] at old
    exact grown (whole.finished w old)

theorem Whole.latest (whole : Whole s) {p : Fin n} {w : Write} (at_ : s.pc p = .writing w) :
    Latest s w := by
  have placed := whole.placed p
  rwa [at_] at placed

theorem whole_step (whole : Whole s) (mutual_ : Mutual s) (queue : Queue s) (move : Move s e t) :
    Whole t := by
  have kept {w : Write} (h : w ∈ s.finished) : w ∈ s.finished ∨ Contiguous s.stored w := .inl h
  have ended {w w' : Write} (fine : Contiguous s.stored w) (h : w' ∈ w :: s.finished) :
      w' ∈ s.finished ∨ Contiguous s.stored w' := by
    rcases List.mem_cons.mp h with rfl | old
    · exact .inr fine
    · exact .inl old
  cases move with
  | @acquires p _ _ free call =>
    refine whole.stay rfl ?_ rfl rfl fun w => kept
    rcases call with ⟨-, bytes, -, rfl⟩ | ⟨-, count, -, rfl⟩ | ⟨copy, chan, back, -, at_, -, rfl⟩
    · exact latest_called s bytes queue.small
    · trivial
    · have slept := whole.placed p
      rw [at_] at slept
      cases back with
      | writing w => exact fun fits => absurd (fits.symm.trans slept) (by decide)
      | reading count => trivial
  | @closes p writable free at_ =>
    refine whole.stay rfl (by trivial) ?_ rfl fun w => kept
    cases writable <;> rfl
  | @ends p copy w at_ =>
    have latest := whole.latest at_
    exact whole.stay rfl latest.contiguous rfl rfl fun w => kept
  | @gaveUp p copy w at_ left why =>
    have latest := whole.latest at_
    exact whole.stay rfl trivial rfl rfl fun w' => ended latest.contiguous
  | @full p copy w at_ left opened full =>
    have latest := whole.latest at_
    refine whole.stay rfl ?_ rfl rfl fun w => kept
    -- a write that fits never finds the ring full
    by_contra fits
    obtain ⟨-, -, -, space⟩ := latest (Bool.not_eq_false _ ▸ fits)
    have := (full_iff s.pipe).mp full
    omega
  | @stores p copy w ch at_ byte opened room =>
    have latest := whole.latest at_
    have less : used s.pipe < PIPESIZE := by
      have := queue.small
      have : used s.pipe ≠ PIPESIZE := fun same => room ((full_iff s.pipe).mpr same)
      omega
    exact whole.change mutual_ (by rw [at_]; rfl) rfl (latest_stored latest byte less)
      (.inr ⟨ch, rfl⟩) rfl
  | readKilled at_ => exact whole.stay rfl trivial rfl rfl fun w => kept
  | readSleeps at_ none opened => exact whole.stay rfl trivial rfl rfl fun w => kept
  | readStarts at_ => exact whole.stay rfl trivial rfl rfl fun w => kept
  | readEnds at_ => exact whole.stay rfl trivial rfl rfl fun w => kept
  | drops at_ some => exact whole.change mutual_ (by rw [at_]; rfl) rfl trivial (.inl rfl) rfl
  | removes at_ some => exact whole.change mutual_ (by rw [at_]; rfl) rfl trivial (.inl rfl) rfl
  | @skips p copy chan after at_ =>
    have placed := whole.placed p
    rw [at_] at placed
    refine whole.stay rfl ?_ rfl rfl fun w => kept
    cases after <;> exact placed
  | @rouses p k copy chan after at_ other unlocked =>
    have placed := whole.placed p
    rw [at_] at placed
    refine whole.stay rfl ?_ rfl rfl fun w => kept
    cases after <;> exact placed
  | @resumes p copy chan k after at_ past =>
    have placed := whole.placed p
    rw [at_] at placed
    cases after with
    | sleep w => exact whole.stay rfl placed rfl rfl fun w => kept
    | wrote w => exact whole.stay rfl trivial rfl rfl fun w' => ended placed
    | read i => exact whole.stay rfl trivial rfl rfl fun w => kept
    | closed => exact whole.stay rfl trivial rfl rfl fun w => kept
  | @falls p copy chan back at_ =>
    have placed := whole.placed p
    rw [at_] at placed
    refine whole.stay rfl ?_ rfl rfl fun w => kept
    cases back <;> exact placed
  | kill unlocked => exact ⟨whole.placed, whole.finished⟩

/-- The write that a process is in. -/
def write : Pc → Option Write
  | .writing w | .waking _ _ (.wrote w) | .waking _ _ (.sleep w) => some w
  | .drowsy _ (.writing w) | .sleeping _ (.writing w) => some w
  | _ => none

/-- A write that a process makes or has made. -/
def Made (s : State n) (w : Write) : Prop := w ∈ s.finished ∨ ∃ p, write (s.pc p) = some w

theorem placed_contiguous {pc : Pc} {w : Write} (placed : Placed s pc) (here : write pc = some w) :
    Contiguous s.stored w := by
  have slept (no : w.fits = false) : Contiguous s.stored w := fun fits => by simp [no] at fits
  cases pc with
  | idle => cases here
  | writing w' =>
    cases here
    exact Latest.contiguous placed
  | reading count => cases here
  | copying count i => cases here
  | waking chan k after =>
    cases after with
    | sleep w' =>
      cases here
      exact slept placed
    | wrote w' =>
      cases here
      exact placed
    | read i => cases here
    | closed => cases here
  | drowsy chan back =>
    cases back with
    | writing w' =>
      cases here
      exact slept placed
    | reading count => cases here
  | sleeping chan back =>
    cases back with
    | writing w' =>
      cases here
      exact slept placed
    | reading count => cases here

theorem Whole.contiguous (whole : Whole s) {w : Write} (made : Made s w) :
    Contiguous s.stored w := by
  rcases made with old | ⟨p, here⟩
  · exact whole.finished w old
  · exact placed_contiguous (whole.placed p) here

/-- Readers have got a prefix of what writers have stored and the ring holds the rest, the
counters are at most a ring apart, and a write that fits is in one piece. -/
theorem bytes_in_order (n : Nat) (data : Nat → Byte) (es : List (Event n)) {s : State n}
    (copies : Meets step Copies (fresh n data) es) (h : run step (fresh n data) es = .ok s) :
    s.handed <+: s.stored ∧ s.handed ++ contents s.pipe = s.stored ∧
      used s.pipe ≤ PIPESIZE ∧ ∀ w, Made s w → Contiguous s.stored w := by
  have keep (s : State n) (e : Event n) (t : State n)
      (inv : Mutual s ∧ Queue s ∧ Whole s) (copies : Copies s e) (h : step s e = .ok t) :
      Mutual t ∧ Queue t ∧ Whole t := by
    obtain ⟨mutual_, queue, whole⟩ := inv
    have move := step_moves h
    exact ⟨mutual_step mutual_ move, queue_step queue copies move,
      whole_step whole mutual_ queue move⟩
  have start : Mutual (fresh n data) ∧ Queue (fresh n data) ∧ Whole (fresh n data) :=
    ⟨mutual_fresh n data, ⟨by simp [used, fresh], by simp [contents, used, fresh]⟩,
      fun _ => trivial, fun w old => by cases old⟩
  obtain ⟨-, queue, whole⟩ := run_invariant keep start copies h
  exact ⟨⟨contents s.pipe, queue.order⟩, queue.order, queue.small, fun w => whole.contiguous⟩

/-- Two bytes written by one process, one of them read by another. -/
def oneOfTwo (p q : Fin n) : List (Event n) :=
  [.pipewrite p [7, 8], .go p true, .go p true, .go p true, .go p true, .go p true, .go p true,
    .piperead q 1, .go q true, .go q true]

theorem bytes_in_order_oneOfTwo : ∃ s, run step (fresh 2 fun _ => 0) (oneOfTwo 0 1) = .ok s ∧
    s.handed = [7] ∧ s.stored = [7, 8] ∧ s.handed ++ contents s.pipe = s.stored := by
  have copies : Meets step Copies (fresh 2 fun _ => 0) (oneOfTwo 0 1) := by decide +kernel
  have ran : Outcomes.Yields (run step (fresh 2 fun _ => 0) (oneOfTwo 0 1))
      fun s => s.handed = [7] ∧ s.stored = [7, 8] := by decide +kernel
  obtain ⟨s, h, handed, stored⟩ := ran
  exact ⟨s, h, handed, stored, (bytes_in_order 2 _ _ copies h).2.1⟩

end PipeOrder
