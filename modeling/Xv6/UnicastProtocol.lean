import Xv6.Lib.Outcomes
import Xv6.ReceiverRuns

/-!
# The unicast protocol

`user/unicast.c`: the message carries the id of the receiver it is for. That
receiver acknowledges it, every other one writes it back. The parent's loop sets
flags that nobody reads, possibly over the content, before the content and the
receiver id are written.
-/

namespace UnicastProtocol

open ByteMemory EventRuns Outcomes PipeReceivers ReceiverRuns

/-- The offset of `receiverId`. -/
def receiverId : Nat := content + MAX_MSG_SIZE

def sizeofMsg : Nat := receiverId + 4

/-- The literal has nine characters; the terminator is written as well. -/
def received : List Byte := ("received!".toList.map fun c => BitVec.ofNat 8 c.toNat) ++ [0]

/-- The child from its read to its write. -/
def receive (myId : Nat) (msg : Memory) : Reply :=
  if loadWord msg receiverId = BitVec.ofNat 32 myId then .acknowledge received
  else .writeBack msg

/-- The message of the parent; what `strcpy` writes past the structure is not sent. -/
def message (numReceiver : Nat) (id : BitVec 32) (text : CString) : Memory :=
  storeWord (strcpy (setFlags numReceiver) content text) receiverId id

/-- `main` after the arguments have been read: `atoi(argv[1])`, `atoi(argv[2])` and
`argv[3]`. -/
def main (numReceiver id : BitVec 32) (text : CString) : Program where
  numReceiver := numReceiver.toInt.toNat
  size := sizeofMsg
  msg := message numReceiver.toInt.toNat id text
  receive := receive
  nonempty := by decide
  fits := by decide
  acknowledges := by
    intro myId msg bytes reply
    unfold receive at reply
    split at reply
    · cases reply
      decide
    · cases reply

variable {n id : BitVec 32} {text : CString} {i j : Fin (main n id text).numReceiver}
variable {order : List (Fin (main n id text).numReceiver)} {msg : Memory}

theorem receive_acknowledge {myId : Nat} {msg : Memory} {bytes : List Byte}
    (h : receive myId msg = .acknowledge bytes) :
    loadWord msg receiverId = BitVec.ofNat 32 myId ∧ bytes = received := by
  unfold receive at h
  split at h
  · cases h
    exact ⟨‹_›, rfl⟩
  · cases h

theorem passOn_eq (msg : Memory) (i : Fin (main n id text).numReceiver) :
    passOn (main n id text) msg i =
      if loadWord msg receiverId = BitVec.ofNat 32 i then none
      else some (arrived (load msg 0 sizeofMsg)) := by
  simp only [passOn, main, receive]
  split <;> rename_i h <;> split at h <;> simp_all

theorem passOn_eq_some {msg' : Memory} : passOn (main n id text) msg i = some msg' ↔
    loadWord msg receiverId ≠ BitVec.ofNat 32 i ∧ arrived (load msg 0 sizeofMsg) = msg' := by
  rw [passOn_eq]
  split <;> simp_all

theorem id_arrived (msg : Memory) :
    loadWord (arrived (load msg 0 sizeofMsg)) receiverId = loadWord msg receiverId := by
  apply Agree.loadWord
  exact (arrived_agree msg sizeofMsg).mono (Nat.zero_le _) (by decide)

theorem text_message (n : Nat) (id : BitVec 32) {text : CString}
    (short : text.length < MAX_MSG_SIZE) : text? (message n id text) = some text.bytes := by
  apply Eq.trans _ (stringAt_strcpy (setFlags n) content short)
  apply Agree.stringAt
  exact store_agree _ (Or.inl le_rfl)

/-- Everyone who reads the message before its receiver sees and passes on the same. -/
theorem passed_same (h : passed (main n id text) order = some msg) :
    loadWord msg receiverId = id ∧ (∀ i ∈ order, BitVec.ofNat 32 i.val ≠ id) ∧
      text? msg = text? (message (main n id text).numReceiver id text) := by
  have inside : content + MAX_MSG_SIZE ≤ sizeofMsg := by decide
  induction order using List.reverseRecOn generalizing msg with
  | nil =>
    obtain rfl := Option.some.inj h
    exact ⟨(id_arrived _).trans (loadWord_storeWord _ _ _), by simp,
      text_arrived _ inside⟩
  | append_singleton order i ih =>
    obtain ⟨msg', before, passes⟩ := passed_append_some h
    obtain ⟨other, rfl⟩ := passOn_eq_some.mp passes
    obtain ⟨same, others, whole⟩ := ih before
    refine ⟨(id_arrived _).trans same, fun j mem => ?_, (text_arrived _ inside).trans whole⟩
    rcases List.mem_append.mp mem with earlier | last
    · exact others j earlier
    · rw [List.mem_singleton.mp last]
      exact fun own => other (same.trans own.symm)

/-- The ids of the children are numbers of the loop counter, an `int`. -/
theorem ofNat_eq_iff : BitVec.ofNat 32 i.val = id ↔ (i.val : Int) = id.toInt := by
  have small : i.val < n.toInt.toNat := i.isLt
  have bound := BitVec.two_mul_toInt_lt (x := n)
  have value : (BitVec.ofNat 32 i.val).toInt = i.val := by
    rw [BitVec.toInt_eq_toNat_of_lt, BitVec.toNat_ofNat, Nat.mod_eq_of_lt]
    · omega
    · rw [BitVec.toNat_ofNat, Nat.mod_eq_of_lt] <;> omega
  rw [← BitVec.toInt_inj, value]

variable {s : State (main n id text).numReceiver}

/-- The acknowledgement is the addressee's. -/
theorem acked_by (relay : Relay (main n id text) s) (acked : s.acks ≠ []) :
    ∃ l i msg, s.reads = l ++ [(i, msg)] ∧ (i.val : Int) = id.toInt ∧ s.acks = [i] ∧
      (s.parent = .exited → s.recvBuf = some received) ∧
      (s.recvBuf = none ∨ s.recvBuf = some received) := by
  obtain ⟨l, i, msg, bytes, last, seen, reply, one, exited, buf⟩ := relay.acked acked
  obtain ⟨own, rfl⟩ := receive_acknowledge reply
  have addressed := own.symm.trans (passed_same seen).1
  exact ⟨l, i, msg, last, ofNat_eq_iff.mp addressed, one, exited, buf⟩

/-- Once the addressee has read, the message is not passed on. -/
theorem not_passed (mem : i ∈ order) (addressed : (i.val : Int) = id.toInt) :
    passed (main n id text) order = none := by
  cases h : passed (main n id text) order with
  | none => rfl
  | some msg => exact absurd (ofNat_eq_iff.mpr addressed) ((passed_same h).2.1 i mem)

/-- The reads and acknowledgements of a state are as the protocol wants them. -/
structure Delivering {n : Nat} (id : BitVec 32) (text : CString) (s : State n) : Prop where
  single : s.channelToReceivers.length ≤ sizeofMsg
  once : (readers s).Nodup
  content : ∀ r ∈ s.reads, text? r.2 = some text.bytes ∧ loadWord r.2 receiverId = id
  acked : s.acks ≠ [] → ∃ i, s.acks = [i] ∧ (i.val : Int) = id.toInt ∧ i ∈ readers s
  answer : s.recvBuf ≠ none → s.recvBuf = some received ∧ s.acks ≠ []

theorem delivering (short : text.length < MAX_MSG_SIZE) (relay : Relay (main n id text) s) :
    Delivering id text s where
  single := relay.one_copy
  once := relay.once
  content r mem := by
    obtain ⟨l, l', split_⟩ := List.append_of_mem mem
    have seen := relay.seen l r.1 r.2 ⟨l', by simp [split_]⟩
    obtain ⟨same, -, whole⟩ := passed_same seen
    exact ⟨whole.trans (text_message _ id short), same⟩
  acked acked := by
    obtain ⟨l, i, msg, last, own, one, -⟩ := acked_by relay acked
    exact ⟨i, one, own, by simp [readers, last]⟩
  answer some := by
    have acked := relay.received some
    obtain ⟨_, _, _, _, _, _, _, buf⟩ := acked_by relay acked
    exact ⟨buf.resolve_left some, acked⟩

/-- The end of a maximal run when the addressee is one of the children. -/
theorem final_acked (inside : 0 ≤ id.toInt ∧ id.toInt < n.toInt)
    (relay : Relay (main n id text) s) (final : Final (step (main n id text)) s) :
    s.acks ≠ [] ∧ s.parent = .exited := by
  obtain ⟨-, -, ends⟩ := relay.final final
  rcases ends with ⟨parent, i, one⟩ | ⟨-, -, everyone, msg, now⟩
  · exact ⟨by simp [one], parent⟩
  · have child : id.toInt.toNat < (main n id text).numReceiver := by
      simp only [main]
      omega
    have none := not_passed (everyone ⟨_, child⟩) (by simpa using inside.1)
    simp [none] at now

/-- In every order of the processes, for a receiver that is one of the children and a text
shorter than `MAX_MSG_SIZE`. -/
theorem unicast_delivers (n id : BitVec 32) (text : CString) (low : 0 ≤ id.toInt)
    (high : id.toInt < n.toInt) (short : text.length < MAX_MSG_SIZE)
    (es : List (Event (main n id text).numReceiver)) (s : State (main n id text).numReceiver)
    (h : run (step (main n id text)) (start (main n id text)) es = .ok s) :
    Delivering id text s ∧ es.length ≤ 4 * (main n id text).numReceiver + 3 ∧
      (Final (step (main n id text)) s → s.recvBuf = some received) := by
  have relay := reachable_relay ⟨es, h⟩
  refine ⟨delivering short relay, run_bound h, fun final => ?_⟩
  obtain ⟨acked, parent⟩ := final_acked ⟨low, high⟩ relay final
  obtain ⟨_, _, _, _, _, _, buf, _⟩ := acked_by relay acked
  exact buf parent

theorem unicast_delivers_second : ∃ s, Reachable (main 3 1 hi) s ∧
    s.recvBuf = some received := by
  obtain ⟨es, s, ran, reach, final⟩ := reachable_final (P := main 3 1 hi) ⟨[], rfl⟩
  have delivers := unicast_delivers 3 1 hi (by decide) (by decide) (by decide) es s ran
  exact ⟨s, reach, delivers.2.2 final⟩

/-- In every order of the processes the maximal runs, which are finite, leave nobody behind. -/
def AllExit (n id : BitVec 32) (text : CString) : Prop :=
  ∀ es s, run (step (main n id text)) (start (main n id text)) es = .ok s →
    Final (step (main n id text)) s → s.parent = .exited ∧ ∀ i, s.child i = .exited

/-- A maximal run leaves nobody behind exactly when the message was acknowledged after
everyone had read it: the addressee read last. -/
theorem all_exited_iff (relay : Relay (main n id text) s)
    (final : Final (step (main n id text)) s) :
    (s.parent = .exited ∧ ∀ i, s.child i = .exited) ↔ s.acks ≠ [] ∧ ∀ i, i ∈ readers s := by
  obtain ⟨read, -, ends⟩ := relay.final final
  constructor
  · rintro ⟨parent, children⟩
    refine ⟨?_, fun i => (read i).mpr (children i)⟩
    rcases ends with ⟨-, i, one⟩ | ⟨waiting, -⟩
    · simp [one]
    · simp [parent] at waiting
  · rintro ⟨acked, everyone⟩
    rcases ends with ⟨parent, -⟩ | ⟨-, none, -⟩
    · exact ⟨parent, fun i => (read i).mp (everyone i)⟩
    · exact absurd none acked

/-- Nobody reads after the addressee. -/
theorem reads_before (addressed : (i.val : Int) = id.toInt) (relay : Relay (main n id text) s)
    (first : ∃ msg, [(i, msg)] <+: s.reads) (acked : s.acks ≠ []) : readers s = [i] := by
  obtain ⟨l, j, msg, last, own, -⟩ := acked_by relay acked
  obtain rfl : j = i := Fin.ext (by omega)
  obtain ⟨msg', rest, reads⟩ := first
  cases l with
  | nil => simp [readers, last]
  | cons r l =>
    rw [last, List.cons_append, List.cons_append, List.nil_append] at reads
    have head := (List.cons.inj reads).1
    have twice := relay.once
    simp [readers, last, ← head] at twice

/-- With another child the addressee can read first, and that child never reads. -/
theorem left_behind (addressed : (i.val : Int) = id.toInt) (other : j ≠ i) :
    ∃ s, Reachable (main n id text) s ∧ Final (step (main n id text)) s ∧
      ¬ (s.acks ≠ [] ∧ ∀ k, k ∈ readers s) := by
  obtain ⟨s, reach, pc, read, data⟩ :=
    reachable_order (P := main n id text) List.nodup_nil (by simp [passed])
  have unread : i ∉ readers s := by simp [read]
  obtain ⟨t, msg, reach', -, -, reads⟩ := reachable_read reach pc data unread
  obtain ⟨es, u, ran, reach'', final⟩ := reachable_final reach'
  have none : s.reads = [] := List.map_eq_nil_iff.mp read
  have first : [(i, msg)] <+: u.reads := by
    simpa [reads, none] using reads_grow ran
  refine ⟨u, reach'', final, ?_⟩
  rintro ⟨acked, everyone⟩
  have only := reads_before addressed (reachable_relay reach'') ⟨msg, first⟩ acked
  have mem := everyone j
  rw [only, List.mem_singleton] at mem
  exact other mem

/-- Only a single receiver, addressed by the message, is never left behind. -/
theorem all_exit_iff (n id : BitVec 32) (text : CString) (some : 1 ≤ n.toInt) :
    AllExit n id text ↔ n.toInt = 1 ∧ id.toInt = 0 := by
  constructor
  · intro all
    obtain ⟨es, s, ran, reach, final⟩ := reachable_final (P := main n id text) ⟨[], rfl⟩
    obtain ⟨acked, -⟩ :=
      (all_exited_iff (reachable_relay reach) final).mp (all es s ran final)
    obtain ⟨-, i, -, -, addressed, -⟩ := acked_by (reachable_relay reach) acked
    have alone (j : Fin (main n id text).numReceiver) : j = i := by
      by_contra other
      obtain ⟨t, ⟨es', ran'⟩, final', behind⟩ := left_behind addressed other
      exact behind ((all_exited_iff (reachable_relay ⟨es', ran'⟩) final').mp
        (all es' t ran' final'))
    have bound (k : Nat) (h : k < n.toInt.toNat) : k = i.val := congrArg Fin.val (alone ⟨k, h⟩)
    have zero := bound 0 (by omega)
    refine ⟨?_, by omega⟩
    by_contra more
    have one := bound 1 (by omega)
    omega
  · rintro ⟨one, zero⟩ es s ran final
    have relay := reachable_relay ⟨es, ran⟩
    obtain ⟨acked, -⟩ := final_acked (by omega) relay final
    obtain ⟨l, i, msg, last, -⟩ := acked_by relay acked
    refine (all_exited_iff relay final).mpr ⟨acked, fun j => ?_⟩
    have small (k : Fin (main n id text).numReceiver) : k.val < n.toInt.toNat := k.isLt
    have same : j = i := Fin.ext (by have := small i; have := small j; omega)
    simp [readers, last, same]

theorem all_exit_iff_one : AllExit 1 0 hi :=
  (all_exit_iff 1 0 hi (by decide)).mpr (by decide)

/-- Both children are forked, the message is sent, and the addressed child reads it first;
then it and the parent go on until they exit. -/
def addresseeFirst (P : Program) (i : Fin P.numReceiver) : List (Event P.numReceiver) :=
  List.replicate (P.numReceiver + 1) .parent ++
    [.child i, .child i, .child i, .parent, .parent]

/-- No process can go on, and the second of two receivers is still in its read. -/
theorem second_receiver_blocked :
    Yields (run (step (main 2 0 hi)) (start (main 2 0 hi))
        (addresseeFirst (main 2 0 hi) ⟨0, by decide⟩)) fun s =>
      (stepParent (main 2 0 hi) s).isOk = false ∧
      (∀ i, (stepChild (main 2 0 hi) s i).isOk = false) ∧
      ∃ i, (s.child i).live = true := by
  decide +kernel

end UnicastProtocol
