import Mathlib.Algebra.BigOperators.Fin
import Mathlib.Data.Fintype.BigOperators
import Xv6.Lib.Tallies
import Xv6.PipeReceivers

/-!
# What holds in every run of the receivers

There is one message, and at any time it is with the parent, in the first pipe,
at the receiver that read it last, or acknowledged. What a reader sees depends
on the receivers that read before it and on their order. Every step spends one
of `4 * numReceiver + 3` steps, and when no process can go on, the receivers that
have read have exited and the others sleep in their reads.
-/

namespace ReceiverRuns

open ByteMemory EventRuns PipeReceivers

variable {P : Program} {s t : State P.numReceiver} {e : Event P.numReceiver}
variable {i j : Fin P.numReceiver} {m : Memory}

/-- The steps of the processes. -/
inductive Moves (P : Program) (s : State P.numReceiver) :
    Event P.numReceiver → State P.numReceiver → Prop
  | fork {k : Nat} (h : k < P.numReceiver) (pc : s.parent = .forking k) :
      Moves P s .parent { s.setChild ⟨k, h⟩ .started with parent := .forking (k + 1) }
  | send {k : Nat} (all : P.numReceiver ≤ k) (pc : s.parent = .forking k)
      (room : s.channelToReceivers.length + P.size ≤ PIPESIZE) :
      Moves P s .parent { s with
        parent := .awaiting
        channelToReceivers := s.channelToReceivers ++ load P.msg 0 P.size }
  | receive (pc : s.parent = .awaiting) (data : s.channelFromReceivers ≠ []) :
      Moves P s .parent { s with
        parent := .received
        channelFromReceivers := s.channelFromReceivers.drop P.size
        recvBuf := some (s.channelFromReceivers.take P.size) }
  | finish (pc : s.parent = .received) : Moves P s .parent { s with parent := .exited }
  | read {i : Fin P.numReceiver} (pc : s.child i = .started) (data : s.channelToReceivers ≠ []) :
      Moves P s (.child i)
        { s.setChild i (.holding (arrived (s.channelToReceivers.take P.size))) with
          channelToReceivers := s.channelToReceivers.drop P.size
          reads := s.reads ++ [(i, arrived (s.channelToReceivers.take P.size))] }
  | acknowledge {i : Fin P.numReceiver} {msg : Memory} {bytes : List Byte}
      (pc : s.child i = .holding msg)
      (reply : P.receive i msg = .acknowledge bytes)
      (room : s.channelFromReceivers.length + bytes.length ≤ PIPESIZE) :
      Moves P s (.child i) { s.setChild i .answered with
        channelFromReceivers := s.channelFromReceivers ++ bytes
        acks := s.acks ++ [i] }
  | writeBack {i : Fin P.numReceiver} {msg msg' : Memory} (pc : s.child i = .holding msg)
      (reply : P.receive i msg = .writeBack msg')
      (room : s.channelToReceivers.length + P.size ≤ PIPESIZE) :
      Moves P s (.child i) { s.setChild i .answered with
        channelToReceivers := s.channelToReceivers ++ load msg' 0 P.size }
  | exit {i : Fin P.numReceiver} (pc : s.child i = .answered) :
    Moves P s (.child i) (s.setChild i .exited)

theorem opened_of_parent (live : s.parent.live) : s.opened = true := by
  simp [State.opened, live]

theorem opened_of_child (live : (s.child i).live) : s.opened = true := by
  have some : ∃ i, (s.child i).live = true := ⟨i, live⟩
  simp [State.opened, some]

theorem stepParent_moves (h : stepParent P s = .ok t) : Moves P s .parent t := by
  unfold stepParent at h
  cases pc : s.parent with
  | forking k =>
    have opened := opened_of_parent (s := s) (by simp [pc, Parent.live])
    by_cases more : k < P.numReceiver
    · simp only [pc, more, ↓reduceDIte] at h
      cases h
      exact .fork more pc
    · by_cases room : s.channelToReceivers.length + P.size ≤ PIPESIZE
      · simp only [pc, more, ↓reduceDIte, pipewrite, opened, not_true_eq_false, ↓reduceIte,
          load_length, room] at h
        cases h
        exact .send (by omega) pc room
      · simp [pc, more, pipewrite, opened, room] at h
  | awaiting =>
    have opened := opened_of_parent (s := s) (by simp [pc, Parent.live])
    by_cases empty : s.channelFromReceivers = []
    · simp [pc, piperead, opened, empty] at h
    · simp only [pc, piperead, opened, empty, false_and, ↓reduceIte] at h
      cases h
      exact .receive pc empty
  | received =>
    simp only [pc] at h
    cases h
    exact .finish pc
  | exited => simp [pc] at h

theorem stepChild_moves (h : stepChild P s i = .ok t) : Moves P s (.child i) t := by
  unfold stepChild at h
  cases pc : s.child i with
  | absent => simp [pc] at h
  | started =>
    have opened := opened_of_child (s := s) (i := i) (by simp [pc, Child.live])
    by_cases empty : s.channelToReceivers = []
    · simp [pc, piperead, opened, empty] at h
    · simp only [pc, piperead, opened, empty, false_and, ↓reduceIte] at h
      cases h
      exact .read pc empty
  | holding msg =>
    have opened := opened_of_child (s := s) (i := i) (by simp [pc, Child.live])
    cases reply : P.receive i msg with
    | acknowledge bytes =>
      by_cases room : s.channelFromReceivers.length + bytes.length ≤ PIPESIZE
      · simp only [pc, reply, pipewrite, opened, not_true_eq_false, ↓reduceIte, room] at h
        cases h
        exact .acknowledge pc reply room
      · simp [pc, reply, pipewrite, opened, room] at h
    | writeBack msg' =>
      by_cases room : s.channelToReceivers.length + P.size ≤ PIPESIZE
      · simp only [pc, reply, pipewrite, opened, not_true_eq_false, ↓reduceIte, room,
          load_length] at h
        cases h
        exact .writeBack pc reply room
      · simp [pc, reply, pipewrite, opened, room] at h
  | answered =>
    simp only [pc] at h
    cases h
    exact .exit pc
  | exited => simp [pc] at h

theorem step_ok : step P s e = .ok t ↔ Moves P s e t := by
  constructor
  · cases e with
    | parent => exact stepParent_moves
    | child i => exact stepChild_moves
  · intro h
    cases h with
    | fork h pc => simp [step, stepParent, pc, h]
    | send all pc room =>
      have opened := opened_of_parent (s := s) (by simp [pc, Parent.live])
      simp [step, stepParent, pc, Nat.not_lt.mpr all, pipewrite, opened, room]
    | receive pc data =>
      have opened := opened_of_parent (s := s) (by simp [pc, Parent.live])
      simp [step, stepParent, pc, piperead, data]
    | finish pc => simp [step, stepParent, pc]
    | @read i pc data => simp [step, stepChild, pc, piperead, data]
    | @acknowledge i _ _ pc reply room =>
      have opened := opened_of_child (s := s) (i := i) (by simp [pc, Child.live])
      simp [step, stepChild, pc, reply, pipewrite, opened, room]
    | @writeBack i _ _ pc reply room =>
      have opened := opened_of_child (s := s) (i := i) (by simp [pc, Child.live])
      simp [step, stepChild, pc, reply, pipewrite, opened, room]
    | exit pc => simp [step, stepChild, pc]

/-- What a receiver passes on, as its next reader sees it. -/
def passOn (P : Program) (msg : Memory) (i : Fin P.numReceiver) : Option Memory :=
  match P.receive i msg with
  | .acknowledge _ => none
  | .writeBack msg => some (arrived (load msg 0 P.size))

/-- What the next reader sees after the receivers of `order` have read. -/
def passed (P : Program) (order : List (Fin P.numReceiver)) : Option Memory :=
  order.foldlM (passOn P) (arrived (load P.msg 0 P.size))

theorem passed_append (order : List (Fin P.numReceiver)) (i : Fin P.numReceiver) :
    passed P (order ++ [i]) = (passed P order).bind (passOn P · i) := by
  simp [passed]

theorem passed_append_some {order : List (Fin P.numReceiver)} {i : Fin P.numReceiver}
    (h : passed P (order ++ [i]) = some m) :
    ∃ msg, passed P order = some msg ∧ passOn P msg i = some m := by
  rw [passed_append] at h
  exact Option.bind_eq_some_iff.mp h

/-- The receivers that have read, in the order of their reads. -/
def readers {n : Nat} (s : State n) : List (Fin n) := s.reads.map Prod.fst

def hasRead : Child → Bool
  | .absent | .started => false
  | _ => true

def holds : Child → Bool
  | .holding _ => true
  | _ => false

/-- A message fits into an empty pipe. -/
theorem room_for_message (pipe : s.channelToReceivers = []) :
    s.channelToReceivers.length + P.size ≤ PIPESIZE := by
  simpa [pipe] using P.fits

theorem message_ne_nil (msg : Memory) : load msg 0 P.size ≠ [] := by
  have some := P.nonempty
  rw [← List.length_pos_iff, load_length]
  exact some

/-- Nothing has been acknowledged. -/
structure Quiet {n : Nat} (s : State n) : Prop where
  pipe : s.channelFromReceivers = []
  acks : s.acks = []
  recvBuf : s.recvBuf = none

inductive Stage (P : Program) (s : State P.numReceiver) : Prop
  | unsent {k : Nat} (pc : s.parent = .forking k) (small : k ≤ P.numReceiver)
      (reads : s.reads = []) (pipe : s.channelToReceivers = []) (quiet : Quiet s)
  | inPipe {msg : Memory} (pc : s.parent = .awaiting)
      (pipe : s.channelToReceivers = load msg 0 P.size)
      (now : passed P (readers s) = some (arrived (load msg 0 P.size)))
      (idle : ∀ i, holds (s.child i) = false) (quiet : Quiet s)
  | held {l : List (Fin P.numReceiver × Memory)} {i : Fin P.numReceiver} {msg : Memory}
      (pc : s.parent = .awaiting) (last : s.reads = l ++ [(i, msg)])
      (own : s.child i = .holding msg) (idle : ∀ j, j ≠ i → holds (s.child j) = false)
      (pipe : s.channelToReceivers = []) (quiet : Quiet s)
  | acknowledged {l : List (Fin P.numReceiver × Memory)} {i : Fin P.numReceiver} {msg : Memory}
      {bytes : List Byte} (last : s.reads = l ++ [(i, msg)])
      (reply : P.receive i msg = .acknowledge bytes) (acks : s.acks = [i])
      (idle : ∀ j, holds (s.child j) = false) (pipe : s.channelToReceivers = [])
      (parent : (s.parent = .awaiting ∧ s.channelFromReceivers = bytes ∧ s.recvBuf = none) ∨
        ((s.parent = .received ∨ s.parent = .exited) ∧ s.channelFromReceivers = [] ∧
          s.recvBuf = some bytes))

/-- The invariant of every run. -/
structure Relay (P : Program) (s : State P.numReceiver) : Prop where
  once : (readers s).Nodup
  read : ∀ i, i ∈ readers s ↔ hasRead (s.child i) = true
  absent : ∀ i, s.child i = .absent ↔ ∃ k, s.parent = .forking k ∧ k ≤ i.val
  /-- What a reader saw is what the readers before it passed on. -/
  seen : ∀ l i msg, l ++ [(i, msg)] <+: s.reads → passed P (l.map Prod.fst) = some msg
  stage : Stage P s

theorem start_relay (P : Program) : Relay P (start P) where
  once := List.nodup_nil
  read i := by simp [readers, start, hasRead]
  absent i := by simp [start]
  seen l i msg h := by simp [start] at h
  stage := .unsent (k := 0) rfl (Nat.zero_le _) rfl rfl ⟨rfl, rfl, rfl⟩

@[simp] theorem setChild_self (s : State P.numReceiver) (i : Fin P.numReceiver) (c : Child) :
    (s.setChild i c).child i = c := by
  simp [State.setChild]

@[simp] theorem setChild_other (s : State P.numReceiver) {i j : Fin P.numReceiver} (c : Child)
    (h : j ≠ i) : (s.setChild i c).child j = s.child j := by
  simp [State.setChild, h]

/-- A step that reads nothing and leaves the readers what they are. -/
theorem Relay.keep (relay : Relay P s) (reads : t.reads = s.reads)
    (child : ∀ i, hasRead (t.child i) = hasRead (s.child i))
    (absent : ∀ i, t.child i = .absent ↔ ∃ k, t.parent = .forking k ∧ k ≤ i.val)
    (stage : Stage P t) : Relay P t where
  once := by simpa only [readers, reads] using relay.once
  read i := by simpa only [readers, reads, child] using relay.read i
  absent := absent
  seen l i msg h := relay.seen l i msg (reads ▸ h)
  stage := stage

/-- All receivers exist once the loop is left. -/
theorem Relay.exists_child (relay : Relay P s) (pc : ∀ k, s.parent ≠ .forking k)
    (i : Fin P.numReceiver) : s.child i ≠ .absent := by
  intro absent
  obtain ⟨k, hk, -⟩ := (relay.absent i).mp absent
  exact pc k hk

theorem Relay.fork (relay : Relay P s) {k : Nat} (h : k < P.numReceiver)
    (pc : s.parent = .forking k) :
    Relay P { s.setChild ⟨k, h⟩ .started with parent := .forking (k + 1) } := by
  have absent : s.child ⟨k, h⟩ = .absent := (relay.absent ⟨k, h⟩).mpr ⟨k, pc, le_rfl⟩
  apply relay.keep (by rfl)
  · intro i
    by_cases own : i = ⟨k, h⟩
    · subst own
      simp [State.setChild, absent, hasRead]
    · simp [State.setChild, own]
  · intro i
    by_cases own : i = ⟨k, h⟩
    · subst own
      simp [State.setChild]
    · have apart : i.val ≠ k := fun same => own (Fin.ext same)
      simp only [State.setChild, Function.update_of_ne own, relay.absent i, pc,
        Parent.forking.injEq, exists_eq_left']
      omega
  · cases relay.stage with
    | unsent _ _ reads pipe quiet =>
      exact .unsent rfl h reads pipe ⟨quiet.pipe, quiet.acks, quiet.recvBuf⟩
    | inPipe pc' | held pc' => simp [pc] at pc'
    | acknowledged _ _ _ _ _ parent => simp [pc] at parent

theorem Relay.send (relay : Relay P s) {k : Nat} (all : P.numReceiver ≤ k)
    (pc : s.parent = .forking k) :
    Relay P { s with
      parent := .awaiting
      channelToReceivers := s.channelToReceivers ++ load P.msg 0 P.size } := by
  apply relay.keep (by rfl) (fun i => by rfl)
  · intro i
    simp only [relay.absent i, pc, Parent.forking.injEq, exists_eq_left', reduceCtorEq, false_and,
      exists_false, iff_false]
    omega
  · cases relay.stage with
    | unsent _ _ reads pipe quiet =>
      have sent : s.channelToReceivers ++ load P.msg 0 P.size = load P.msg 0 P.size := by
        simp [pipe]
      refine .inPipe rfl sent ?_ (fun i => ?_)
        ⟨quiet.pipe, quiet.acks, quiet.recvBuf⟩
      · simp [readers, reads, passed]
      · have unread := (relay.read i).not.mp (by simp [readers, reads])
        cases h : s.child i <;> simp_all [hasRead, holds]
    | inPipe pc' | held pc' => simp [pc] at pc'
    | acknowledged _ _ _ _ _ parent => simp [pc] at parent

theorem Relay.receive (relay : Relay P s) (pc : s.parent = .awaiting)
    (data : s.channelFromReceivers ≠ []) :
    Relay P { s with
      parent := .received
      channelFromReceivers := s.channelFromReceivers.drop P.size
      recvBuf := some (s.channelFromReceivers.take P.size) } := by
  apply relay.keep (by rfl) (fun i => by rfl)
  · intro i
    simp [relay.absent i, pc]
  · cases relay.stage with
    | unsent pc' => simp [pc] at pc'
    | inPipe _ _ _ _ quiet => exact absurd quiet.pipe data
    | held _ _ _ _ _ quiet => exact absurd quiet.pipe data
    | acknowledged last reply acks idle pipe parent =>
      rcases parent with ⟨-, from_, -⟩ | ⟨-, from_, -⟩
      · have short := (P.acknowledges _ _ _ reply).2
        refine .acknowledged last reply acks idle pipe (Or.inr ⟨Or.inl rfl, ?_, ?_⟩)
        · simp [from_, short]
        · simp [from_, short]
      · exact absurd from_ data

theorem Relay.finish (relay : Relay P s) (pc : s.parent = .received) :
    Relay P { s with parent := .exited } := by
  apply relay.keep (by rfl) (fun i => by rfl)
  · intro i
    simp [relay.absent i, pc]
  · cases relay.stage with
    | unsent pc' | inPipe pc' | held pc' => simp [pc] at pc'
    | acknowledged last reply acks idle pipe parent =>
      rcases parent with ⟨pc', -⟩ | ⟨-, from_, buf⟩
      · simp [pc] at pc'
      · exact .acknowledged last reply acks idle pipe (Or.inr ⟨Or.inr rfl, from_, buf⟩)

theorem Relay.take (relay : Relay P s) (pc : s.child i = .started)
    (data : s.channelToReceivers ≠ []) :
    Relay P { s.setChild i (.holding (arrived (s.channelToReceivers.take P.size))) with
      channelToReceivers := s.channelToReceivers.drop P.size
      reads := s.reads ++ [(i, arrived (s.channelToReceivers.take P.size))] } := by
  have unread : i ∉ readers s := by simp [relay.read, pc, hasRead]
  have present : ¬ ∃ k, s.parent = .forking k ∧ k ≤ i.val := by simp [← relay.absent, pc]
  cases relay.stage with
  | unsent _ _ _ pipe => exact absurd pipe data
  | held _ _ _ _ pipe => exact absurd pipe data
  | acknowledged _ _ _ _ pipe => exact absurd pipe data
  | @inPipe msg pc' pipe now idle quiet =>
    have whole : s.channelToReceivers.take P.size = load msg 0 P.size := by simp [pipe]
    rw [whole]
    constructor
    · simpa [readers] using List.nodup_append.mpr ⟨relay.once, List.nodup_singleton i, fun a ha b hb =>
        fun same => unread (List.mem_singleton.mp hb ▸ same ▸ ha)⟩
    · intro j
      by_cases own : j = i
      · subst own
        simp [readers, State.setChild, hasRead]
      · have := relay.read j
        simpa [readers, State.setChild, own] using this
    · intro j
      by_cases own : j = i
      · subst own
        simpa [State.setChild] using present
      · simpa [State.setChild, own] using relay.absent j
    · intro l j seen prefix_
      rcases List.prefix_concat_iff.mp prefix_ with last | earlier
      · obtain ⟨rfl, pair⟩ := List.append_inj' last rfl
        cases pair
        exact now
      · exact relay.seen l j seen earlier
    · refine .held (l := s.reads) (i := i) pc' rfl (by simp [State.setChild]) (fun j other => ?_)
        (by simp [pipe]) ⟨quiet.pipe, quiet.acks, quiet.recvBuf⟩
      simpa [State.setChild, other] using idle j

/-- Only the receiver that read last is at its write. -/
theorem Relay.holder (relay : Relay P s) (pc : s.child i = .holding m) :
    ∃ l, s.parent = .awaiting ∧ s.reads = l ++ [(i, m)] ∧ passed P (l.map Prod.fst) = some m ∧
      (∀ j, j ≠ i → holds (s.child j) = false) ∧ s.channelToReceivers = [] ∧ Quiet s := by
  have notIdle : holds (s.child i) ≠ false := by simp [pc, holds]
  cases relay.stage with
  | unsent _ _ reads _ _ =>
    have read := (relay.read i).mpr (by simp [pc, hasRead])
    simp [readers, reads] at read
  | inPipe _ _ _ idle _ => exact absurd (idle i) notIdle
  | acknowledged _ _ _ idle _ _ => exact absurd (idle i) notIdle
  | @held l j msg pc' last own idle pipe quiet =>
    by_cases same : i = j
    · subst same
      obtain rfl : msg = m := by simpa [own] using pc
      exact ⟨l, pc', last, relay.seen l i msg (last ▸ List.prefix_rfl), idle, pipe, quiet⟩
    · exact absurd (idle i same) notIdle

/-- After its write a receiver has read, and holds nothing. -/
theorem Relay.answer (relay : Relay P s) (pc : s.child i = .holding m)
    (child : t.child = Function.update s.child i .answered) (parent : t.parent = s.parent)
    (reads : t.reads = s.reads)
    (stage : (∀ j, holds (t.child j) = false) → Stage P t) : Relay P t := by
  obtain ⟨l, pc', -, -, idle, -⟩ := relay.holder pc
  have idle' (j : Fin P.numReceiver) : holds (t.child j) = false := by
    by_cases own : j = i
    · subst own
      simp [child, holds]
    · simpa [child, own] using idle j own
  apply relay.keep reads
  · intro j
    by_cases own : j = i
    · subst own
      simp [child, pc, hasRead]
    · simp [child, own]
  · intro j
    by_cases own : j = i
    · subst own
      simp [child, parent, pc']
    · simpa [child, parent, own] using relay.absent j
  · exact stage idle'

theorem Relay.acknowledge (relay : Relay P s) {bytes : List Byte} (pc : s.child i = .holding m)
    (reply : P.receive i m = .acknowledge bytes) :
    Relay P { s.setChild i .answered with
      channelFromReceivers := s.channelFromReceivers ++ bytes
      acks := s.acks ++ [i] } := by
  obtain ⟨l, pc', last, -, -, pipe, quiet⟩ := relay.holder pc
  apply relay.answer pc (by rfl) (by rfl) (by rfl)
  intro idle
  exact .acknowledged last reply (by simp [quiet.acks]) idle pipe
    (Or.inl ⟨pc', by simp [quiet.pipe], quiet.recvBuf⟩)

theorem Relay.writeBack (relay : Relay P s) {msg : Memory} (pc : s.child i = .holding m)
    (reply : P.receive i m = .writeBack msg) :
    Relay P { s.setChild i .answered with
      channelToReceivers := s.channelToReceivers ++ load msg 0 P.size } := by
  obtain ⟨l, pc', last, now, -, pipe, quiet⟩ := relay.holder pc
  apply relay.answer pc (by rfl) (by rfl) (by rfl)
  intro idle
  have back : s.channelToReceivers ++ load msg 0 P.size = load msg 0 P.size := by simp [pipe]
  refine .inPipe pc' back ?_ idle ⟨quiet.pipe, quiet.acks, quiet.recvBuf⟩
  simp [readers, State.setChild, last, passed_append, now, passOn, reply]

theorem Relay.exit (relay : Relay P s) (pc : s.child i = .answered) :
    Relay P (s.setChild i .exited) := by
  have same (j : Fin P.numReceiver) :
      hasRead ((s.setChild i .exited).child j) = hasRead (s.child j) ∧
      holds ((s.setChild i .exited).child j) = holds (s.child j) := by
    by_cases own : j = i
    · subst own
      simp [pc, hasRead, holds]
    · simp [own]
  apply relay.keep (by rfl) (fun j => (same j).1)
  · intro j
    by_cases own : j = i
    · subst own
      have present : ¬ ∃ k, s.parent = .forking k ∧ k ≤ j.val := by simp [← relay.absent, pc]
      simpa [State.setChild] using present
    · simpa [State.setChild, own] using relay.absent j
  · cases relay.stage with
    | unsent pc' small reads pipe quiet =>
      exact .unsent pc' small reads pipe ⟨quiet.pipe, quiet.acks, quiet.recvBuf⟩
    | inPipe pc' pipe now idle quiet =>
      exact .inPipe pc' pipe now (fun j => (same j).2.trans (idle j))
        ⟨quiet.pipe, quiet.acks, quiet.recvBuf⟩
    | @held l k msg pc' last own idle pipe quiet =>
      have apart : k ≠ i := by
        rintro rfl
        simp [own] at pc
      exact .held pc' last (by simpa [apart] using own)
        (fun j other => (same j).2.trans (idle j other)) pipe
        ⟨quiet.pipe, quiet.acks, quiet.recvBuf⟩
    | acknowledged last reply acks idle pipe parent =>
      exact .acknowledged last reply acks (fun j => (same j).2.trans (idle j)) pipe parent

theorem step_relay (relay : Relay P s) (h : step P s e = .ok t) : Relay P t := by
  cases step_ok.mp h with
  | fork more pc => exact relay.fork more pc
  | send all pc => exact relay.send all pc
  | receive pc data => exact relay.receive pc data
  | finish pc => exact relay.finish pc
  | read pc data => exact relay.take pc data
  | acknowledge pc reply => exact relay.acknowledge pc reply
  | writeBack pc reply => exact relay.writeBack pc reply
  | exit pc => exact relay.exit pc

theorem reachable_relay (reach : Reachable P s) : Relay P s := by
  obtain ⟨es, h⟩ := reach
  exact run_invariant_all (fun _ _ _ relay h => step_relay relay h) (start_relay P) h

theorem Relay.one_copy (relay : Relay P s) : s.channelToReceivers.length ≤ P.size := by
  cases relay.stage with
  | unsent _ _ _ pipe _ | held _ _ _ _ pipe _ | acknowledged _ _ _ _ pipe _ => simp [pipe]
  | inPipe _ pipe _ _ _ => simp [pipe]

/-- The acknowledgement is the answer of the last reader to what it saw. -/
theorem Relay.acked (relay : Relay P s) (acks : s.acks ≠ []) :
    ∃ (l : List (Fin P.numReceiver × Memory)) (i : Fin P.numReceiver) (msg : Memory)
      (bytes : List Byte), s.reads = l ++ [(i, msg)] ∧ passed P (l.map Prod.fst) = some msg ∧
      P.receive i msg = .acknowledge bytes ∧ s.acks = [i] ∧
      (s.parent = .exited → s.recvBuf = some bytes) ∧
      (s.recvBuf = none ∨ s.recvBuf = some bytes) := by
  cases relay.stage with
  | unsent _ _ _ _ quiet | inPipe _ _ _ _ quiet | held _ _ _ _ _ quiet =>
    exact absurd quiet.acks acks
  | @acknowledged l i msg bytes last reply one idle pipe parent =>
    refine ⟨l, i, msg, bytes, last, relay.seen l i msg (last ▸ List.prefix_rfl), reply, one, ?_⟩
    rcases parent with ⟨pc, -, buf⟩ | ⟨-, -, buf⟩
    · simp [pc, buf]
    · simp [buf]

/-- Nothing is received before it is acknowledged. -/
theorem Relay.received (relay : Relay P s) (buf : s.recvBuf ≠ none) : s.acks ≠ [] := by
  cases relay.stage with
  | unsent _ _ _ _ quiet | inPipe _ _ _ _ quiet | held _ _ _ _ _ quiet =>
    exact absurd quiet.recvBuf buf
  | acknowledged _ _ one _ _ _ => simp [one]

def parentRank (n : Nat) : Parent → Nat
  | .forking i => n - i + 3
  | .awaiting => 2
  | .received => 1
  | .exited => 0

def childRank : Child → Nat
  | .absent | .started => 3
  | .holding _ => 2
  | .answered => 1
  | .exited => 0

/-- The steps that are left, if all receivers read. -/
def rank {n : Nat} (s : State n) : Nat := parentRank n s.parent + ∑ i, childRank (s.child i)

theorem sum_update {n a b : Nat} {child : Fin n → Child} {i : Fin n} {c : Child}
    (was : childRank (child i) = a) (now : childRank c = b) :
    (∑ j, childRank (Function.update child i c j)) + a = (∑ j, childRank (child j)) + b := by
  have change := Tallies.sum_update childRank child i c
  omega

theorem step_rank (relay : Relay P s) (h : step P s e = .ok t) : rank t + 1 = rank s := by
  cases step_ok.mp h with
  | @fork k more pc =>
    have absent : s.child ⟨k, more⟩ = .absent := (relay.absent ⟨k, more⟩).mpr ⟨k, pc, le_rfl⟩
    have children := sum_update (a := 3) (b := 3) (congrArg childRank absent) (c := .started) rfl
    simp only [rank, State.setChild, parentRank, pc]
    omega
  | send all pc =>
    simp only [rank, parentRank, pc]
    omega
  | receive pc data =>
    simp only [rank, parentRank, pc]
    omega
  | finish pc =>
    simp only [rank, parentRank, pc]
    omega
  | @read i pc data =>
    have children := sum_update (a := 3) (b := 2) (congrArg childRank pc)
      (c := .holding (arrived (s.channelToReceivers.take P.size))) rfl
    simp only [rank, State.setChild]
    omega
  | @acknowledge i _ _ pc reply room =>
    have children := sum_update (a := 2) (b := 1) (congrArg childRank pc) (c := .answered) rfl
    simp only [rank, State.setChild]
    omega
  | @writeBack i _ _ pc reply room =>
    have children := sum_update (a := 2) (b := 1) (congrArg childRank pc) (c := .answered) rfl
    simp only [rank, State.setChild]
    omega
  | @exit i pc =>
    have children := sum_update (a := 1) (b := 0) (congrArg childRank pc) (c := .exited) rfl
    simp only [rank, State.setChild]
    omega

theorem relay_rank (s : State P.numReceiver) (e : Event P.numReceiver) (t : State P.numReceiver)
    (relay : Relay P s) (h : step P s e = .ok t) : Relay P t ∧ rank t + 1 = rank s :=
  ⟨step_relay relay h, step_rank relay h⟩

theorem start_rank (P : Program) : rank (start P) = 4 * P.numReceiver + 3 := by
  simp [rank, start, parentRank, childRank]
  omega

/-- No run is longer than the program. -/
theorem run_bound {es : List (Event P.numReceiver)} (h : run (step P) (start P) es = .ok s) :
    es.length ≤ 4 * P.numReceiver + 3 := by
  have spent := (run_rank relay_rank (start_relay P) h).2
  rw [start_rank] at spent
  omega

/-- Every run can be carried on until no process has a step left. -/
theorem reachable_final (reach : Reachable P s) :
    ∃ es t, run (step P) s es = .ok t ∧ Reachable P t ∧ Final (step P) t := by
  obtain ⟨es, t, run, final⟩ := exists_final relay_rank (reachable_relay reach)
  obtain ⟨es', start⟩ := reach
  exact ⟨es, t, run, ⟨es' ++ es, run_append_ok.mpr ⟨s, start, run⟩⟩, final⟩

theorem not_final (moves : Moves P s e t) : ¬ Final (step P) s :=
  fun final => final e t (step_ok.mpr moves)

/-- At the end of a maximal run the receivers that have read have exited, the others are in
their reads, and the parent has exited if and only if the message was acknowledged. -/
theorem Relay.final (relay : Relay P s) (final : Final (step P) s) :
    (∀ i, i ∈ readers s ↔ s.child i = .exited) ∧
    (∀ i, i ∉ readers s ↔ s.child i = .started) ∧
    ((s.parent = .exited ∧ ∃ i, s.acks = [i]) ∨
      (s.parent = .awaiting ∧ s.acks = [] ∧ (∀ i, i ∈ readers s) ∧
        ∃ msg, passed P (readers s) = some msg)) := by
  have answered (i : Fin P.numReceiver) : s.child i ≠ .answered :=
    fun pc => not_final (.exit pc) final
  have settled (idle : ∀ i, holds (s.child i) = false) (pc : ∀ k, s.parent ≠ .forking k) :
      (∀ i, i ∈ readers s ↔ s.child i = .exited) ∧
      ∀ i, i ∉ readers s ↔ s.child i = .started := by
    have present (i : Fin P.numReceiver) := relay.exists_child pc i
    refine ⟨fun i => ?_, fun i => ?_⟩ <;>
    · rw [relay.read i]
      have h₁ := present i
      have h₂ := answered i
      have h₃ := idle i
      cases h : s.child i <;> simp_all [hasRead, holds]
  cases relay.stage with
  | @unsent k pc small reads pipe quiet =>
    by_cases more : k < P.numReceiver
    · exact absurd final (not_final (.fork more pc))
    · exact absurd final (not_final (.send (by omega) pc (room_for_message pipe)))
  | @inPipe msg pc pipe now idle quiet =>
    have data : s.channelToReceivers ≠ [] := pipe ▸ message_ne_nil msg
    obtain ⟨read, unread⟩ := settled idle (by simp [pc])
    have everyone (i : Fin P.numReceiver) : i ∈ readers s := by
      by_contra missing
      exact not_final (.read ((unread i).mp missing) data) final
    exact ⟨read, unread, Or.inr ⟨pc, quiet.acks, everyone, _, now⟩⟩
  | @held l i msg pc last own idle pipe quiet =>
    cases reply : P.receive i msg with
    | acknowledge bytes =>
      have short := (P.acknowledges _ _ _ reply).2
      have room : s.channelFromReceivers.length + bytes.length ≤ PIPESIZE := by
        simpa [quiet.pipe] using short.trans P.fits
      exact absurd final (not_final (.acknowledge own reply room))
    | writeBack msg' =>
      exact absurd final (not_final (.writeBack own reply (room_for_message pipe)))
  | @acknowledged l i msg bytes last reply acks idle pipe parent =>
    have gone : s.parent = .exited := by
      rcases parent with ⟨pc, from_, -⟩ | ⟨pc | pc, -⟩
      · have data : s.channelFromReceivers ≠ [] := by
          rw [from_, ← List.length_pos_iff]
          exact (P.acknowledges _ _ _ reply).1
        exact absurd final (not_final (.receive pc data))
      · exact absurd final (not_final (.finish pc))
      · exact pc
    obtain ⟨read, unread⟩ := settled idle (by simp [gone])
    exact ⟨read, unread, Or.inl ⟨gone, i, acks⟩⟩

/-- Reads are not forgotten. -/
theorem reads_grow {es : List (Event P.numReceiver)} (h : run (step P) s es = .ok t) :
    s.reads <+: t.reads := by
  apply run_invariant_all (I := fun u => s.reads <+: u.reads) _ List.prefix_rfl h
  intro u e v grown moves
  cases step_ok.mp moves with
  | read => exact grown.trans (List.prefix_append _ _)
  | fork | send | receive | finish | acknowledge | writeBack | exit => exact grown

theorem reachable_step (reach : Reachable P s) (moves : Moves P s e t) : Reachable P t := by
  obtain ⟨es, h⟩ := reach
  exact ⟨es ++ [e], run_append_ok.mpr ⟨s, h, run_cons_ok.mpr ⟨t, step_ok.mpr moves, rfl⟩⟩⟩

theorem reachable_forking (k : Nat) (small : k ≤ P.numReceiver) :
    ∃ s, Reachable P s ∧ s.parent = .forking k := by
  induction k with
  | zero => exact ⟨start P, ⟨[], rfl⟩, rfl⟩
  | succ k ih =>
    obtain ⟨s, reach, pc⟩ := ih (by omega)
    exact ⟨_, reachable_step reach (.fork small pc), rfl⟩

/-- With the message in the pipe, any receiver that has not read can read next. -/
theorem reachable_read (reach : Reachable P s) (pc : s.parent = .awaiting)
    (data : s.channelToReceivers ≠ []) (unread : i ∉ readers s) :
    ∃ t msg, Reachable P t ∧ t.parent = .awaiting ∧ t.child i = .holding msg ∧
      t.reads = s.reads ++ [(i, msg)] := by
  have relay := reachable_relay reach
  have waiting : s.child i = .started := by
    have present := relay.exists_child (by simp [pc]) i
    have read := (relay.read i).not.mp unread
    cases h : s.child i <;> simp_all [hasRead]
  refine ⟨_, _, reachable_step reach (.read waiting data), pc, ?_, rfl⟩
  simp [State.setChild]

/-- Every order in which nobody before the end acknowledges occurs. -/
theorem reachable_order {order : List (Fin P.numReceiver)} (once : order.Nodup)
    (unanswered : passed P order ≠ none) :
    ∃ s, Reachable P s ∧ s.parent = .awaiting ∧ readers s = order ∧
      s.channelToReceivers ≠ [] := by
  induction order using List.reverseRecOn with
  | nil =>
    obtain ⟨s, reach, pc⟩ := reachable_forking (P := P) P.numReceiver le_rfl
    cases (reachable_relay reach).stage with
    | inPipe pc' | held pc' => simp [pc] at pc'
    | acknowledged _ _ _ _ _ parent => simp [pc] at parent
    | unsent _ _ reads pipe quiet =>
      refine ⟨_, reachable_step reach (.send le_rfl pc (room_for_message pipe)), rfl,
        by simp [readers, reads], ?_⟩
      simpa [pipe] using message_ne_nil P.msg
  | append_singleton order i ih =>
    have before : passed P order ≠ none := by
      intro none
      rw [passed_append, none] at unanswered
      exact unanswered rfl
    obtain ⟨apart, -, distinct⟩ := List.nodup_append.mp once
    obtain ⟨s, reach, pc, read, data⟩ := ih apart before
    have unread : i ∉ readers s := fun mem =>
      distinct i (read ▸ mem) i (List.mem_singleton_self i) rfl
    obtain ⟨t, msg, reach', pc', own, reads⟩ := reachable_read reach pc data unread
    obtain ⟨l, -, last, now, -, pipe, -⟩ := (reachable_relay reach').holder own
    obtain ⟨rfl, -⟩ := List.append_inj' (reads.symm.trans last) rfl
    have seen : passed P order = some msg := by rwa [← read]
    cases reply : P.receive i msg with
    | acknowledge bytes =>
      rw [passed_append, seen] at unanswered
      simp [passOn, reply] at unanswered
    | writeBack msg' =>
      refine ⟨_, reachable_step reach' (.writeBack own reply (room_for_message pipe)), pc', ?_, ?_⟩
      · simp [readers, State.setChild, reads, ← read]
      · simpa [pipe] using message_ne_nil msg'

end ReceiverRuns
