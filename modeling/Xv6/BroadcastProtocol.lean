import Xv6.Lib.Outcomes
import Xv6.ReceiverRuns

/-!
# The broadcast protocol

`user/broadcast.c`: the message carries a flag for each receiver that has not
read it yet. A receiver clears its flag and adds up the flags; if the sum is
zero, it acknowledges. The loops that set and clear flags run over the
receivers, the sum over the array.
-/

namespace BroadcastProtocol

open ByteMemory EventRuns Outcomes PipeReceivers ReceiverRuns

def sizeofMsg : Nat := content + MAX_MSG_SIZE

def sum (msg : Memory) : BitVec 32 :=
  (List.range MAX_NUM_RECEIVERS).foldl (fun sum j => sum + loadWord msg (flag j)) 0

def completed : List Byte := "completed!".toList.map fun c => BitVec.ofNat 8 c.toNat

/-- The child from its read to its write. -/
def receive (myId : Nat) (msg : Memory) : Reply :=
  let msg := setFlag msg myId 0
  if sum msg = 0 then .acknowledge completed else .writeBack msg

/-- The message of the parent; what `strcpy` writes past the structure is not sent. -/
def message (numReceiver : Nat) (text : CString) : Memory :=
  strcpy (setFlags numReceiver) content text

/-- `main` after the arguments have been read: `atoi(argv[1])` and `argv[2]`. -/
def main (numReceiver : BitVec 32) (text : CString) : Program where
  numReceiver := numReceiver.toInt.toNat
  size := sizeofMsg
  msg := message numReceiver.toInt.toNat text
  receive := receive
  nonempty := by decide
  fits := by decide
  acknowledges := by
    intro myId msg bytes reply
    unfold receive at reply
    dsimp only at reply
    split at reply
    · cases reply
      decide
    · cases reply

theorem loadWord_setFlag (msg : Memory) (i j : Nat) (x : BitVec 32) :
    loadWord (setFlag msg i x) (flag j) = if j = i then x else loadWord msg (flag j) := by
  by_cases same : j = i
  · subst same
    simp [setFlag, loadWord_storeWord]
  · rw [if_neg same]
    apply Agree.loadWord
    apply store_agree
    simp only [word, List.length_cons, List.length_nil, flag]
    omega

theorem text_setFlag (msg : Memory) {i : Nat} (x : BitVec 32) (inside : i < MAX_NUM_RECEIVERS) :
    text? (setFlag msg i x) = text? msg := by
  apply Agree.stringAt
  apply store_agree
  simp only [MAX_NUM_RECEIVERS] at inside
  simp only [word, List.length_cons, List.length_nil, flag, content, MAX_NUM_RECEIVERS]
  omega

theorem loadWord_arrived (msg : Memory) {j : Nat} (small : j < MAX_NUM_RECEIVERS) :
    loadWord (arrived (load msg 0 sizeofMsg)) (flag j) = loadWord msg (flag j) := by
  apply Agree.loadWord
  apply (arrived_agree msg sizeofMsg).mono (Nat.zero_le _)
  simp only [MAX_NUM_RECEIVERS] at small
  simp only [flag, sizeofMsg, content, MAX_NUM_RECEIVERS, MAX_MSG_SIZE]
  omega

theorem setFlags_apply (n j : Nat) :
    loadWord (setFlags n) (flag j) = if j < n then 1 else 0 := by
  induction n with
  | zero => simp [setFlags, loadWord]
  | succ n ih =>
    have last : setFlags (n + 1) = setFlag (setFlags n) n 1 := by
      simp [setFlags, List.range_succ]
    rw [last, loadWord_setFlag, ih]
    by_cases same : j = n
    · simp [same]
    · have : j < n + 1 ↔ j < n := by omega
      simp [same, this]

theorem loadWord_message (n : Nat) (text : CString) {j : Nat} (small : j < MAX_NUM_RECEIVERS) :
    loadWord (message n text) (flag j) = if j < n then 1 else 0 := by
  rw [← setFlags_apply n j]
  apply Agree.loadWord
  apply store_agree
  simp only [MAX_NUM_RECEIVERS] at small
  simp only [flag, content, MAX_NUM_RECEIVERS]
  omega

theorem text_message (n : Nat) {text : CString} (short : text.length < MAX_MSG_SIZE) :
    text? (message n text) = some text.bytes :=
  stringAt_strcpy _ content short

theorem text_message_long (n : Nat) {text : CString} (long : MAX_MSG_SIZE ≤ text.length) :
    text? (message n text) = none :=
  stringAt_strcpy_long _ content long

theorem foldl_toNat {f : Nat → BitVec 32} {js : List Nat} (bits : ∀ j ∈ js, (f j).toNat ≤ 1)
    {x : BitVec 32} (room : x.toNat + js.length < 2 ^ 32) :
    (js.foldl (fun sum j => sum + f j) x).toNat = x.toNat + (js.map fun j => (f j).toNat).sum := by
  induction js generalizing x with
  | nil => simp
  | cons j js ih =>
    have bit := bits j List.mem_cons_self
    simp only [List.length_cons] at room
    have here : (x + f j).toNat = x.toNat + (f j).toNat := by
      rw [BitVec.toNat_add, Nat.mod_eq_of_lt]
      omega
    rw [List.foldl_cons, ih (fun k hk => bits k (List.mem_cons_of_mem j hk)) (by omega), here]
    simp only [List.map_cons, List.sum_cons]
    omega

/-- The stop test: the sum is zero if and only if no flag of the array is set. -/
theorem sum_eq_zero_iff {msg : Memory}
    (bits : ∀ j < MAX_NUM_RECEIVERS, (loadWord msg (flag j)).toNat ≤ 1) :
    sum msg = 0 ↔ ∀ j < MAX_NUM_RECEIVERS, loadWord msg (flag j) = 0 := by
  have inRange : ∀ j ∈ List.range MAX_NUM_RECEIVERS, (loadWord msg (flag j)).toNat ≤ 1 :=
    fun j hj => bits j (List.mem_range.mp hj)
  have total := foldl_toNat inRange (x := 0) (by decide)
  have value : (sum msg).toNat = ((List.range MAX_NUM_RECEIVERS).map
      fun j => (loadWord msg (flag j)).toNat).sum := by
    simpa [sum] using total
  have zero (x : BitVec 32) : x = 0 ↔ x.toNat = 0 := by
    rw [← BitVec.toNat_inj]
    rfl
  rw [zero, value, List.sum_eq_zero_iff_forall_eq_nat]
  constructor
  · intro all j small
    exact (zero _).mpr (all _ (List.mem_map.mpr ⟨j, List.mem_range.mpr small, rfl⟩))
  · intro all x hx
    obtain ⟨j, hj, rfl⟩ := List.mem_map.mp hx
    exact (zero _).mp (all j (List.mem_range.mp hj))

variable {n : BitVec 32} {text : CString} {i : Fin (main n text).numReceiver}
variable {order : List (Fin (main n text).numReceiver)} {msg : Memory}

theorem first_flags {j : Nat} (small : j < MAX_NUM_RECEIVERS) :
    loadWord (arrived (load (main n text).msg 0 sizeofMsg)) (flag j) =
      if j < (main n text).numReceiver then 1 else 0 := by
  rw [loadWord_arrived _ small]
  exact loadWord_message _ text small

theorem passOn_eq (msg : Memory) (i : Fin (main n text).numReceiver) :
    passOn (main n text) msg i = if sum (setFlag msg i 0) = 0 then none
      else some (arrived (load (setFlag msg i 0) 0 sizeofMsg)) := by
  simp only [passOn, main, receive]
  split <;> rename_i h <;> split at h <;> simp_all

theorem passOn_eq_some {msg' : Memory} : passOn (main n text) msg i = some msg' ↔
    sum (setFlag msg i 0) ≠ 0 ∧ arrived (load (setFlag msg i 0) 0 sizeofMsg) = msg' := by
  rw [passOn_eq]
  split <;> simp_all

/-- The flags of the array say which receivers of the array have not read yet. -/
theorem passed_flags (h : passed (main n text) order = some msg) {j : Nat}
    (small : j < MAX_NUM_RECEIVERS) :
    loadWord msg (flag j) =
      if j < (main n text).numReceiver ∧ j ∉ order.map Fin.val then 1 else 0 := by
  induction order using List.reverseRecOn generalizing msg with
  | nil =>
    obtain rfl := Option.some.inj h
    apply (first_flags small).trans
    simp
  | append_singleton order i ih =>
    obtain ⟨msg', before, passes⟩ := passed_append_some h
    obtain ⟨-, rfl⟩ := passOn_eq_some.mp passes
    rw [loadWord_arrived _ small, loadWord_setFlag, ih before]
    by_cases own : j = i.val
    · simp [own]
    · simp [own]

/-- The receivers of the array that are left when `i` has read after `order`. -/
theorem sum_eq_zero (h : passed (main n text) order = some msg) :
    sum (setFlag msg i 0) = 0 ↔
      ∀ j : Fin (main n text).numReceiver, j.val < MAX_NUM_RECEIVERS → j ∈ order ++ [i] := by
  have cleared {j : Nat} (small : j < MAX_NUM_RECEIVERS) :
      loadWord (setFlag msg i 0) (flag j) =
        if j < (main n text).numReceiver ∧ j ∉ (order ++ [i]).map Fin.val then 1 else 0 := by
    rw [loadWord_setFlag, passed_flags h small]
    by_cases own : j = i.val
    · simp [own]
    · simp [own]
  rw [sum_eq_zero_iff]
  · constructor
    · intro zero j small
      have unset := zero j small
      rw [cleared small] at unset
      by_contra missing
      have outside : j.val ∉ (order ++ [i]).map Fin.val := by
        rw [List.mem_map]
        rintro ⟨k, mem, same⟩
        exact missing (Fin.ext same ▸ mem)
      rw [if_pos ⟨j.isLt, outside⟩] at unset
      exact absurd unset (by decide)
    · intro all j small
      rw [cleared small, if_neg]
      rintro ⟨inside, outside⟩
      exact outside (List.mem_map.mpr ⟨⟨j, inside⟩, all ⟨j, inside⟩ small, rfl⟩)
  · intro j small
    rw [cleared small]
    split <;> decide

/-- A message that is passed on still has a reader in the array. -/
theorem passed_open (h : passed (main n text) order = some msg) (some : order ≠ []) :
    ∃ j : Fin (main n text).numReceiver, j.val < MAX_NUM_RECEIVERS ∧ j ∉ order := by
  rcases List.eq_nil_or_concat order with rfl | ⟨earlier, i, rfl⟩
  · exact absurd rfl some
  · rw [List.concat_eq_append] at h
    obtain ⟨msg', before, passes⟩ := passed_append_some h
    by_contra everyone
    apply (passOn_eq_some.mp passes).1
    apply (sum_eq_zero before).mpr
    intro j small
    by_contra missing
    exact everyone ⟨j, small, by simpa using missing⟩

/-- Until then nobody acknowledges. -/
theorem passed_isSome (left : ∃ j : Fin (main n text).numReceiver,
    j.val < MAX_NUM_RECEIVERS ∧ j ∉ order) : passed (main n text) order ≠ none := by
  induction order using List.reverseRecOn with
  | nil => simp [passed]
  | append_singleton order i ih =>
    obtain ⟨j, small, missing⟩ := left
    have before := ih ⟨j, small, fun mem => missing (List.mem_append_left _ mem)⟩
    cases seen : passed (main n text) order with
    | none => exact absurd seen before
    | some msg =>
      rw [passed_append, seen, Option.bind_some, passOn_eq, if_neg]
      · simp
      · intro zero
        exact missing ((sum_eq_zero seen).mp zero j small)

/-- Within the array clearing a flag does not reach the text. -/
theorem passed_text (few : (main n text).numReceiver ≤ MAX_NUM_RECEIVERS)
    (h : passed (main n text) order = some msg) :
    text? msg = text? (message (main n text).numReceiver text) := by
  induction order using List.reverseRecOn generalizing msg with
  | nil =>
    obtain rfl := Option.some.inj h
    exact text_arrived _ le_rfl
  | append_singleton order i ih =>
    obtain ⟨msg', before, passes⟩ := passed_append_some h
    obtain ⟨-, rfl⟩ := passOn_eq_some.mp passes
    have kept := text_setFlag msg' 0 (i.isLt.trans_le few)
    exact (text_arrived _ le_rfl).trans (kept.trans (ih before))

/-- The reads and acknowledgements of a state are as the protocol wants them. -/
structure Delivering {n : Nat} (text : CString) (s : State n) : Prop where
  once : (readers s).Nodup
  content : ∀ r ∈ s.reads, text? r.2 = some text.bytes
  single : s.channelToReceivers.length ≤ sizeofMsg
  ackOnce : s.acks.length ≤ 1
  ackLast : s.acks ≠ [] → ∀ i, i ∈ readers s

structure Complete {n : Nat} (s : State n) : Prop where
  everyone : ∀ i, i ∈ readers s
  acked : s.acks.length = 1
  recvBuf : s.recvBuf = some completed
  parent : s.parent = .exited
  children : ∀ i, s.child i = .exited

variable {s : State (main n text).numReceiver}

theorem receive_acknowledge {myId : Nat} {msg : Memory} {bytes : List Byte}
    (h : receive myId msg = .acknowledge bytes) :
    sum (setFlag msg myId 0) = 0 ∧ bytes = completed := by
  unfold receive at h
  dsimp only at h
  split at h
  · cases h
    exact ⟨‹_›, rfl⟩
  · cases h

/-- At the acknowledgement every receiver of the array has read. -/
theorem ack_last (relay : Relay (main n text) s) (acked : s.acks ≠ [])
    (small : i.val < MAX_NUM_RECEIVERS) : i ∈ readers s := by
  obtain ⟨l, j, msg, bytes, last, seen, reply, -⟩ := relay.acked acked
  have read : readers s = l.map Prod.fst ++ [j] := by simp [readers, last]
  rw [read]
  exact (sum_eq_zero seen).mp (receive_acknowledge reply).1 i small

theorem seen_text (relay : Relay (main n text) s)
    (few : (main n text).numReceiver ≤ MAX_NUM_RECEIVERS) (short : text.length < MAX_MSG_SIZE) :
    ∀ r ∈ s.reads, text? r.2 = some text.bytes := by
  intro r mem
  obtain ⟨l, l', split_⟩ := List.append_of_mem mem
  have seen := relay.seen l r.1 r.2 ⟨l', by simp [split_]⟩
  rw [passed_text few seen]
  exact text_message _ short

theorem receivers_le : (main n text).numReceiver ≤ MAX_NUM_RECEIVERS ↔
    n.toInt ≤ MAX_NUM_RECEIVERS := by
  simp only [main]
  omega

theorem delivering (few : n.toInt ≤ MAX_NUM_RECEIVERS) (short : text.length < MAX_MSG_SIZE)
    (relay : Relay (main n text) s) : Delivering text s where
  once := relay.once
  content := seen_text relay (receivers_le.mpr few) short
  single := relay.one_copy
  ackOnce := by
    by_cases none : s.acks = []
    · simp [none]
    · obtain ⟨_, _, _, _, _, _, _, one, _⟩ := relay.acked none
      simp [one]
  ackLast acked i := ack_last relay acked (i.isLt.trans_le (receivers_le.mpr few))

theorem complete (some : 1 ≤ n.toInt) (few : n.toInt ≤ MAX_NUM_RECEIVERS)
    (relay : Relay (main n text) s) (final : Final (step (main n text)) s) : Complete s := by
  obtain ⟨read, unread, ends⟩ := relay.final final
  rcases ends with ⟨parent, one⟩ | ⟨parent, none, everyone, msg, now⟩
  · obtain ⟨j, one⟩ := one
    have acked : s.acks ≠ [] := by simp [one]
    have everyone (i : Fin (main n text).numReceiver) : i ∈ readers s :=
      ack_last relay acked (i.isLt.trans_le (receivers_le.mpr few))
    obtain ⟨_, _, _, bytes, _, _, reply, _, buf, _⟩ := relay.acked acked
    exact {
      everyone := everyone
      acked := by simp [one]
      recvBuf := (receive_acknowledge reply).2 ▸ buf parent
      parent := parent
      children := fun i => (read i).mp (everyone i) }
  · have first : (0 : Nat) < (main n text).numReceiver := by
      simp only [main]
      omega
    have read : readers s ≠ [] := List.ne_nil_of_mem (everyone ⟨0, first⟩)
    obtain ⟨j, -, missing⟩ := passed_open now read
    exact absurd (everyone j) missing

/-- For at most `MAX_NUM_RECEIVERS` receivers and a text shorter than `MAX_MSG_SIZE`, in every
order of the processes. -/
theorem broadcast_delivers (n : BitVec 32) (text : CString) (some : 1 ≤ n.toInt)
    (few : n.toInt ≤ MAX_NUM_RECEIVERS) (short : text.length < MAX_MSG_SIZE)
    (es : List (Event (main n text).numReceiver)) (s : State (main n text).numReceiver)
    (h : run (step (main n text)) (start (main n text)) es = .ok s) :
    Delivering text s ∧ es.length ≤ 4 * (main n text).numReceiver + 3 ∧
      (Final (step (main n text)) s → Complete s) := by
  have relay := reachable_relay ⟨es, h⟩
  exact ⟨delivering few short relay, run_bound h, complete some few relay⟩

theorem broadcast_delivers_three : ∃ s, Reachable (main 3 hi) s ∧ Complete s := by
  obtain ⟨es, s, ran, reach, final⟩ := reachable_final (P := main 3 hi) ⟨[], rfl⟩
  have delivers := broadcast_delivers 3 hi (by decide) (by decide) (by decide) es s ran
  exact ⟨s, reach, delivers.2.2 final⟩

/-- In every order of the receivers: the acknowledgement comes last and the text is intact. -/
def Safe (n : BitVec 32) (text : CString) : Prop :=
  ∀ es s, run (step (main n text)) (start (main n text)) es = .ok s →
    (s.acks ≠ [] → ∀ i, i ∈ readers s) ∧ ∀ r ∈ s.reads, text? r.2 = some text.bytes

theorem exists_below (k b : Nat) : ∃ order : List (Fin k), order.Nodup ∧
    ∀ i, i ∈ order ↔ i.val < b :=
  ⟨(List.finRange k).filter fun i => i.val < b, (List.nodup_finRange k).filter _, by simp⟩

/-- With more receivers than the array has flags, the first ten can read first. -/
theorem acknowledged_early (many : MAX_NUM_RECEIVERS < (main n text).numReceiver) :
    ∃ s, Reachable (main n text) s ∧ s.acks ≠ [] ∧
      ∀ i, i ∈ readers s → i.val < MAX_NUM_RECEIVERS := by
  obtain ⟨order, once, below⟩ := exists_below (main n text).numReceiver 9
  obtain ⟨tenth, is⟩ : ∃ i : Fin (main n text).numReceiver, i.val = 9 :=
    ⟨⟨9, lt_trans (by decide) many⟩, rfl⟩
  have left : tenth ∉ order := by
    rw [below]
    omega
  have small : tenth.val < MAX_NUM_RECEIVERS := is.trans_lt (by decide)
  obtain ⟨s, reach, pc, read, data⟩ :=
    reachable_order once (passed_isSome ⟨tenth, small, left⟩)
  have unread : tenth ∉ readers s := read.symm ▸ left
  obtain ⟨t, msg, reach', pc', own, reads⟩ := reachable_read reach pc data unread
  obtain ⟨l, -, last, seen, -, pipe, quiet⟩ := (reachable_relay reach').holder own
  obtain ⟨rfl, -⟩ := List.append_inj' (reads.symm.trans last) rfl
  rw [show s.reads.map Prod.fst = order from read] at seen
  have zero : sum (setFlag msg tenth 0) = 0 := by
    refine (sum_eq_zero seen).mpr fun j inside => ?_
    rw [List.mem_append, below, List.mem_singleton, Fin.ext_iff, is]
    unfold MAX_NUM_RECEIVERS at inside
    omega
  have reply : (main n text).receive tenth msg = .acknowledge completed := if_pos zero
  have room : t.channelFromReceivers.length + completed.length ≤ PIPESIZE := by
    rw [quiet.pipe]
    decide
  refine ⟨_, reachable_step reach' (.acknowledge own reply room), by simp, fun i mem => ?_⟩
  have all : readers t = order ++ [tenth] := by
    simp only [readers, reads, List.map_append]
    exact congrArg (· ++ [tenth]) read
  have mem' : i ∈ readers t := mem
  rw [all, List.mem_append, below, List.mem_singleton, Fin.ext_iff, is] at mem'
  unfold MAX_NUM_RECEIVERS
  omega

/-- The first reader of a text that does not fit sees an array without an end. -/
theorem text_cut (some : 0 < (main n text).numReceiver) (long : MAX_MSG_SIZE ≤ text.length) :
    ∃ s, Reachable (main n text) s ∧ ∃ r ∈ s.reads, text? r.2 = none := by
  obtain ⟨s, reach, pc, read, data⟩ :=
    reachable_order (P := main n text) List.nodup_nil (by simp [passed])
  obtain ⟨t, msg, reach', pc', own, reads⟩ := reachable_read (i := ⟨0, some⟩) reach pc data
    (by simp [read])
  have none : s.reads = [] := List.map_eq_nil_iff.mp read
  have seen := (reachable_relay reach').seen [] ⟨0, some⟩ msg (by simp [reads, none])
  refine ⟨t, reach', (⟨0, some⟩, msg), by simp [reads], ?_⟩
  obtain rfl := Option.some.inj seen
  exact (text_arrived _ le_rfl).trans (text_message_long _ long)

/-- Exactly when receivers and text fit into the structure. -/
theorem broadcast_safe_iff (n : BitVec 32) (text : CString) (some : 1 ≤ n.toInt) :
    Safe n text ↔ n.toInt ≤ MAX_NUM_RECEIVERS ∧ text.length < MAX_MSG_SIZE := by
  constructor
  · intro safe
    refine ⟨?_, ?_⟩
    · by_contra many
      have past : MAX_NUM_RECEIVERS < (main n text).numReceiver := by
        rw [← not_le, receivers_le]
        exact many
      obtain ⟨s, ⟨es, h⟩, acked, small⟩ := acknowledged_early past
      have read := (safe es s h).1 acked ⟨MAX_NUM_RECEIVERS, past⟩
      exact lt_irrefl _ (small _ read)
    · by_contra long
      have first : 0 < (main n text).numReceiver := by
        simp only [main]
        omega
      obtain ⟨s, ⟨es, h⟩, r, mem, cut⟩ := text_cut first (not_lt.mp long)
      have whole := (safe es s h).2 r mem
      simp [cut] at whole
  · rintro ⟨few, short⟩ es s h
    have good := delivering few short (reachable_relay ⟨es, h⟩)
    exact ⟨good.ackLast, good.content⟩

theorem broadcast_safe_iff_three : Safe 3 hi :=
  (broadcast_safe_iff 3 hi (by decide)).mpr (by decide)

/-- All children are forked, the message is sent, and the first ten read and write. -/
def firstTen (P : Program) : List (Event P.numReceiver) :=
  List.replicate (P.numReceiver + 1) .parent ++
    ((List.finRange P.numReceiver).take 10).flatMap fun i => [.child i, .child i]

/-- The tenth of eleven receivers writes the acknowledgement before the last has read. -/
theorem eleven_receivers :
    Yields (run (step (main 11 hi)) (start (main 11 hi)) (firstTen (main 11 hi))) fun s =>
      s.acks ≠ [] ∧ ∃ i, i ∉ readers s := by
  decide +kernel

end BroadcastProtocol
