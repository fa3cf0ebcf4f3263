import Mathlib.Data.List.Basic
import Xv6.ShellTokens

/-!
# The parser and the grammar

What a function returns is what the grammar gives for the tokens that it takes, and a list
of tokens that the grammar has is taken as a whole when a token follows that ends it. No
function calls itself without end: each call that does not take a token goes down one kind
of command.
-/

namespace ShellParses

open ShellGrammar ShellParser ShellTokens

variable {line : List Char} {ps : Nat} {ts us : List Token} {cmd : Cmd} {rounds depth : Nat}
  {rs : List Redirection} {ws : List (Nat × Nat)}

theorem wrap_append (rs rs' : List Redirection) (cmd : Cmd) :
    wrap (rs ++ rs') cmd = wrap rs' (wrap rs cmd) := List.foldl_append

theorem addArg_redirection (q eq : Nat) (r : Redirection) (cmd : Cmd) :
    addArg q eq (r.wrap cmd) = r.wrap (addArg q eq cmd) := by
  obtain ⟨op, _, _⟩ := r
  cases op <;> rfl

theorem addArg_wrap (q eq : Nat) (rs : List Redirection) (ws : List (Nat × Nat)) :
    addArg q eq (wrap rs (.exec ws)) = wrap rs (.exec (ws ++ [(q, eq)])) := by
  have inside (cmd : Cmd) : addArg q eq (wrap rs cmd) = wrap rs (addArg q eq cmd) := by
    induction rs generalizing cmd with
    | nil => rfl
    | cons r rs ih => exact (ih _).trans (congrArg (wrap rs) (addArg_redirection q eq r cmd))
  exact inside _

/-- The node that `parseredirs` makes. -/
theorem redirection_made (op : Op) (q eq : Nat) (cmd : Cmd) :
    (if code (.redir op) = '<' then Cmd.redir cmd q eq O_RDONLY 0
      else if code (.redir op) = '>' then .redir cmd q eq (O_WRONLY ||| O_CREATE ||| O_TRUNC) 1
      else if code (.redir op) = '+' then .redir cmd q eq (O_WRONLY ||| O_CREATE) 1
      else cmd) = (⟨op, q, eq⟩ : Redirection).wrap cmd := by
  cases op <;> rfl

theorem opens_redir (h : opens ['<', '>'] ts = true) : ∃ op rest, ts = .redir op :: rest := by
  cases ts with
  | nil => cases h
  | cons t rest =>
    cases t with
    | redir op => exact ⟨op, rest, rfl⟩
    | _ => cases h

/-- A first character that is not that of two tokens tells the token. -/
theorem first_inj {t u : Token} {c : Char} (ht : first t = some c) (hu : first u = some c)
    (plain : c ≠ '>') : t = u := by
  have single (v : Token) (hv : first v = some c) : v = .redir .input ∧ c = '<' ∨
      v = .bar ∧ c = '|' ∨ v = .amp ∧ c = '&' ∨ v = .semi ∧ c = ';' ∨ v = .left ∧ c = '(' ∨
      v = .right ∧ c = ')' := by
    cases v with
    | word q eq => cases hv
    | redir op =>
      cases op with
      | input => exact .inl ⟨rfl, (Option.some.inj hv).symm⟩
      | output => exact absurd (Option.some.inj hv).symm plain
      | append => exact absurd (Option.some.inj hv).symm plain
    | _ => simp [← Option.some.inj hv]
  have one := single t ht
  rcases single u hu with ⟨rfl, rfl⟩ | ⟨rfl, rfl⟩ | ⟨rfl, rfl⟩ | ⟨rfl, rfl⟩ | ⟨rfl, rfl⟩ |
    ⟨rfl, rfl⟩ <;> simpa using one

theorem opens_one (t : Token) {c : Char} (ht : first t = some c) (plain : c ≠ '>')
    (h : opens [c] ts = true) : ∃ rest, ts = t :: rest := by
  cases ts with
  | nil => cases h
  | cons u rest =>
    have hu : first u = some c := by
      cases some_ : first u with
      | none => simp [opens, some_] at h
      | some d => simpa [opens, some_, strchr] using h
    exact ⟨rest, by rw [first_inj hu ht plain]⟩

theorem code_word {t : Token} (h : code t = 'a') : ∃ q eq, t = .word q eq := by
  cases t with
  | word q eq => exact ⟨q, eq, rfl⟩
  | redir op => cases op <;> cases h
  | _ => cases h

theorem code_some (t : Token) : code t ≠ NUL := by
  cases t with
  | word q eq => exact (by decide : 'a' ≠ NUL)
  | redir op => cases op <;> decide
  | _ => decide

/-- The parser comes to an end, and what it returns is as it should be. -/
def Ends (x : Parsed) (P : Cmd → Nat → Prop) : Prop :=
  x ≠ .error .endless ∧ ∀ cmd ps, x = .ok (cmd, ps) → P cmd ps

variable {P Q : Cmd → Nat → Prop} {x : Parsed}

theorem ends_ok (h : P cmd ps) : Ends (.ok (cmd, ps)) P := by
  refine ⟨nofun, fun cmd' ps' same => ?_⟩
  cases same
  exact h

theorem ends_panic (message : String) : Ends (.error (.panic message)) P := ⟨nofun, nofun⟩

theorem Ends.mono (h : Ends x P) (weaker : ∀ cmd ps, P cmd ps → Q cmd ps) : Ends x Q :=
  ⟨h.1, fun cmd ps same => weaker cmd ps (h.2 cmd ps same)⟩

theorem Ends.bind {f : Cmd × Nat → Parsed} (h : Ends x P)
    (next : ∀ cmd ps, P cmd ps → Ends (f (cmd, ps)) Q) : Ends (x >>= f) Q := by
  cases x with
  | error e =>
    refine ⟨fun same => h.1 ?_, nofun⟩
    exact congrArg Except.error (Except.error.inj same)
  | ok r => exact next r.1 r.2 (h.2 r.1 r.2 rfl)

theorem parseredirs_ends (nul : NUL ∉ line) (at_ : At line ps ts) (enough : ts.length < rounds) :
    Ends (parseredirs line rounds cmd ps) fun cmd' ps' => ∃ us rs ts', ts = us ++ ts' ∧
      Redirections us rs ∧ cmd' = wrap rs cmd ∧ At line ps' ts' := by
  induction rounds generalizing ps ts cmd with
  | zero => exact absurd enough (Nat.not_lt_zero _)
  | succ rounds ih =>
    obtain ⟨ps₁, peeked, at₁, -⟩ := peek_spec nul at_ ['<', '>'] rfl
    simp only [parseredirs, peeked]
    cases more : opens ['<', '>'] ts with
    | false => exact ends_ok ⟨[], [], ts, rfl, .nil, rfl, at₁⟩
    | true =>
      obtain ⟨op, ts₁, rfl⟩ := opens_redir more
      obtain ⟨q, e, ps₂, taken, at₂, -⟩ := gettoken_spec nul at₁
      simp only [taken, redirection_made]
      cases ts₁ with
      | nil =>
        rw [if_neg (by decide), if_pos (by rw [(gettoken_end at₂).1]; decide)]
        exact ends_panic _
      | cons t ts₂ =>
        obtain ⟨q', e', ps₃, taken', at₃, word⟩ := gettoken_spec nul at₂
        simp only [taken']
        by_cases name : code t = 'a'
        · obtain ⟨a, b, rfl⟩ := code_word name
          obtain ⟨rfl, rfl⟩ := word a b rfl
          rw [if_neg (by decide), if_neg (not_not_intro name)]
          simp only [List.length_cons] at enough
          refine (ih at₃ (by omega)).mono ?_
          rintro cmd' ps' ⟨us, rs, ts', rfl, redirs, rfl, at'⟩
          exact ⟨_, ⟨op, a, b⟩ :: rs, ts', rfl, .cons redirs, rfl, at'⟩
        · rw [if_neg (by decide), if_pos name]
          exact ends_panic _

/-- What the loop over the words leaves, with the words and redirections there were before. -/
def Filled (line : List Char) (ts : List Token) (rs : List Redirection) (ws : List (Nat × Nat))
    (cmd : Cmd) (ps : Nat) : Prop :=
  ∃ us ws' rs' ts', ts = us ++ ts' ∧ Arguments us ws' rs' ∧ (ws ++ ws').length ≤ MAXARGS - 1 ∧
    cmd = wrap (rs ++ rs') (.exec (ws ++ ws')) ∧ At line ps ts'

theorem filled_nil (few : ws.length ≤ MAXARGS - 1) (at_ : At line ps ts) :
    Filled line ts rs ws (wrap rs (.exec ws)) ps := by
  refine ⟨[], [], [], ts, rfl, .nil, ?_, ?_, at_⟩
  · rwa [List.append_nil]
  · rw [List.append_nil, List.append_nil]

theorem filled_cons {q e : Nat} {rs' : List Redirection} {us ts : List Token}
    (redirs : Redirections us rs')
    (rest : Filled line ts (rs ++ rs') (ws ++ [(q, e)]) cmd ps) :
    Filled line (.word q e :: (us ++ ts)) rs ws cmd ps := by
  obtain ⟨us', ws', rs'', ts', rfl, args, few, rfl, at'⟩ := rest
  refine ⟨_, (q, e) :: ws', _, ts', ?_, .cons redirs args, ?_, ?_, at'⟩
  · rw [List.cons_append, List.append_assoc]
  · rwa [List.append_assoc] at few
  · rw [List.append_assoc, List.append_assoc]
    rfl

theorem execLoop_ends (nul : NUL ∉ line) {argc : Nat} (at_ : At line ps ts)
    (enough : ts.length < rounds) (count : ws.length = argc) (few : argc ≤ MAXARGS - 1) :
    Ends (execLoop line rounds (wrap rs (.exec ws)) argc ps) (Filled line ts rs ws) := by
  induction rounds generalizing ps ts argc ws rs with
  | zero => exact absurd enough (Nat.not_lt_zero _)
  | succ rounds ih =>
    have stop {ps : Nat} (at_ : At line ps ts) :
        Ends (.ok (wrap rs (.exec ws), ps)) (Filled line ts rs ws) :=
      ends_ok (filled_nil (by rwa [count]) at_)
    obtain ⟨ps₁, peeked, at₁, -⟩ := peek_spec nul at_ ['|', ')', '&', ';'] rfl
    simp only [execLoop, peeked]
    cases stops : opens ['|', ')', '&', ';'] ts with
    | true => exact stop at₁
    | false =>
      rw [if_neg (by decide)]
      cases ts with
      | nil =>
        rw [if_pos (gettoken_end at₁).1]
        exact stop (gettoken_end at₁).2
      | cons t ts₁ =>
        obtain ⟨q, e, ps₂, taken, at₂, word⟩ := gettoken_spec nul at₁
        simp only [taken]
        rw [if_neg (code_some t)]
        by_cases name : code t = 'a'
        · obtain ⟨a, b, rfl⟩ := code_word name
          obtain ⟨rfl, rfl⟩ := word a b rfl
          rw [if_neg (not_not_intro name)]
          by_cases many : MAXARGS ≤ argc + 1
          · rw [if_pos many]
            exact ends_panic _
          · rw [if_neg many, addArg_wrap]
            have short := at₂.length_le
            simp only [List.length_cons] at enough
            refine (parseredirs_ends nul at₂ (by omega)).bind ?_
            rintro _ ps' ⟨us, rs', ts', rfl, redirs, rfl, at'⟩
            rw [← wrap_append]
            rw [List.length_append] at enough
            refine (ih at' (by omega) ?_ (by omega)).mono fun _ _ => filled_cons redirs
            rw [List.length_append, count]
            rfl
        · rw [if_pos name]
          exact ends_panic _

theorem backLoop_ends (nul : NUL ∉ line) (at_ : At line ps ts) (enough : ts.length < rounds) :
    Ends (backLoop line rounds cmd ps) fun cmd' ps' => ∃ k ts', ts = List.replicate k .amp ++ ts' ∧
      cmd' = Cmd.back^[k] cmd ∧ At line ps' ts' := by
  induction rounds generalizing ps ts cmd with
  | zero => exact absurd enough (Nat.not_lt_zero _)
  | succ rounds ih =>
    obtain ⟨ps₁, peeked, at₁, -⟩ := peek_spec nul at_ ['&'] rfl
    simp only [backLoop, peeked]
    cases more : opens ['&'] ts with
    | false => exact ends_ok ⟨0, ts, rfl, rfl, at₁⟩
    | true =>
      obtain ⟨rest, rfl⟩ := opens_one .amp rfl (by decide) more
      obtain ⟨q, e, ps₂, taken, at₂, -⟩ := gettoken_spec nul at₁
      simp only [taken]
      rw [if_neg (by decide)]
      refine (ih at₂ (Nat.lt_of_succ_lt_succ enough)).mono ?_
      rintro cmd' ps' ⟨k, ts', rfl, rfl, at'⟩
      exact ⟨k + 1, ts', rfl, rfl, at'⟩

/-- A beginning of the tokens stands for the command, and the rest is still to be read. -/
def Parses (line : List Char) (kind : Kind) (ts : List Token) (cmd : Cmd) (ps : Nat) : Prop :=
  ∃ us ts', ts = us ++ ts' ∧ Derives kind us cmd ∧ At line ps ts'

def parse (line : List Char) : Kind → Nat → Nat → Parsed
  | .line => parseline line
  | .pipe => parsepipe line
  | .exec => parseexec line

/-- How far the kinds of commands go down before a token is taken. -/
def rank : Kind → Nat
  | .line => 4
  | .pipe => 3
  | .exec => 2

/-- What is to be shown of the calls of one depth. -/
def Sound (line : List Char) (depth : Nat) : Prop :=
  ∀ kind ps ts, At line ps ts → 4 * ts.length + rank kind ≤ depth →
    Ends (parse line kind depth ps) (Parses line kind ts)

variable {line : List Char} {ps : Nat} {ts : List Token} {depth : Nat}

theorem parseline_ends (nul : NUL ∉ line) (below : Sound line depth) (at_ : At line ps ts)
    (enough : 4 * ts.length + 4 ≤ depth + 1) :
    Ends (parseline line (depth + 1) ps) (Parses line .line ts) := by
  unfold parseline
  have piped := below .pipe ps ts at_ (Nat.le_of_succ_le_succ enough)
  refine piped.bind ?_
  rintro cmd ps₁ ⟨us, ts₁, rfl, first, at₁⟩
  have short := at₁.length_le
  refine (backLoop_ends nul at₁ (by omega)).bind ?_
  rintro _ ps₂ ⟨k, ts₂, rfl, rfl, at₂⟩
  obtain ⟨ps₃, peeked, at₃, -⟩ := peek_spec nul at₂ [';'] rfl
  simp only [peeked]
  cases more : opens [';'] ts₂ with
  | false =>
    refine ends_ok ⟨us ++ List.replicate k .amp, ts₂, ?_, .last k first, at₃⟩
    rw [List.append_assoc]
  | true =>
    obtain ⟨rest, rfl⟩ := opens_one .semi rfl (by decide) more
    obtain ⟨q, e, ps₄, taken, at₄, -⟩ := gettoken_spec nul at₃
    simp only [taken]
    rw [if_neg (by decide)]
    simp only [List.length_append, List.length_cons] at enough
    refine (below .line ps₄ rest at₄ (by simp only [rank]; omega)).bind ?_
    rintro right ps' ⟨us', ts', rfl, second, at'⟩
    refine ends_ok ⟨us ++ (List.replicate k .amp ++ .semi :: us'), ts', ?_,
      .list k first second, at'⟩
    simp only [List.append_assoc, List.cons_append]

theorem parsepipe_ends (nul : NUL ∉ line) (below : Sound line depth) (at_ : At line ps ts)
    (enough : 4 * ts.length + 3 ≤ depth + 1) :
    Ends (parsepipe line (depth + 1) ps) (Parses line .pipe ts) := by
  unfold parsepipe
  have run := below .exec ps ts at_ (Nat.le_of_succ_le_succ enough)
  refine run.bind ?_
  rintro cmd ps₁ ⟨us, ts₁, rfl, first, at₁⟩
  obtain ⟨ps₂, peeked, at₂, -⟩ := peek_spec nul at₁ ['|'] rfl
  simp only [peeked]
  cases more : opens ['|'] ts₁ with
  | false => exact ends_ok ⟨us, ts₁, rfl, .single first, at₂⟩
  | true =>
    obtain ⟨rest, rfl⟩ := opens_one .bar rfl (by decide) more
    obtain ⟨q, e, ps₃, taken, at₃, -⟩ := gettoken_spec nul at₂
    simp only [taken]
    rw [if_neg (by decide)]
    simp only [List.length_append, List.length_cons] at enough
    refine (below .pipe ps₃ rest at₃ (by simp only [rank]; omega)).bind ?_
    rintro right ps' ⟨us', ts', rfl, second, at'⟩
    refine ends_ok ⟨us ++ .bar :: us', ts', ?_, .pipe first second, at'⟩
    rw [List.append_assoc, List.cons_append]

theorem parseblock_ends (nul : NUL ∉ line) (below : Sound line depth) {rest : List Token}
    (at_ : At line ps (.left :: rest)) (enough : 4 * rest.length + 4 ≤ depth) :
    Ends (parseblock line (depth + 1) ps) (Parses line .exec (.left :: rest)) := by
  unfold parseblock
  obtain ⟨ps₁, peeked, at₁, -⟩ := peek_spec nul at_ ['('] rfl
  obtain ⟨q, e, ps₂, taken, at₂, -⟩ := gettoken_spec nul at₁
  have here : opens ['('] (.left :: rest) = true := rfl
  simp only [peeked, here, taken]
  rw [if_neg (by decide)]
  refine (below .line ps₂ rest at₂ enough).bind ?_
  rintro cmd ps₃ ⟨us, ts₁, rfl, inner, at₃⟩
  obtain ⟨ps₄, peeked', at₄, -⟩ := peek_spec nul at₃ [')'] rfl
  simp only [peeked']
  cases closes : opens [')'] ts₁ with
  | false => exact ends_panic _
  | true =>
    obtain ⟨rest', rfl⟩ := opens_one .right rfl (by decide) closes
    obtain ⟨q', e', ps₅, taken', at₅, -⟩ := gettoken_spec nul at₄
    simp only [taken']
    rw [if_neg (by decide)]
    have short := at₅.length_le
    refine (parseredirs_ends nul at₅ (by omega)).mono ?_
    rintro _ ps' ⟨us', rs, ts', rfl, redirs, rfl, at'⟩
    refine ⟨.left :: (us ++ .right :: us'), ts', ?_, .block inner redirs, at'⟩
    simp only [List.append_assoc, List.cons_append]

theorem parseexec_simple (nul : NUL ∉ line) (at_ : At line ps ts) :
    Ends (do
      let (ret, ps) ← parseredirs line (line.length + 1) (.exec []) ps
      execLoop line (line.length + 1) ret 0 ps) (Parses line .exec ts) := by
  have short := at_.length_le
  refine (parseredirs_ends nul at_ (by omega)).bind ?_
  rintro _ ps₁ ⟨us, rs, ts₁, rfl, redirs, rfl, at₁⟩
  have short₁ := at₁.length_le
  have filled : Ends (execLoop line (line.length + 1) (wrap rs (.exec [])) 0 ps₁)
      (Filled line ts₁ rs []) := execLoop_ends nul at₁ (by omega) rfl (Nat.zero_le _)
  refine filled.mono ?_
  rintro _ ps' ⟨us', ws', rs', ts', rfl, args, few, rfl, at'⟩
  exact ⟨us ++ us', ts', (List.append_assoc ..).symm, .simple redirs args few, at'⟩

/-- Every call of enough depth ends, with a command of the grammar. -/
theorem parse_ends (nul : NUL ∉ line) (depth : Nat) : Sound line depth := by
  induction depth using Nat.strongRecOn with
  | ind depth ih =>
    intro kind ps ts at_ enough
    cases depth with
    | zero => cases kind <;> simp only [rank] at enough <;> omega
    | succ depth =>
      have below := ih depth (Nat.lt_succ_self _)
      cases kind with
      | line => exact parseline_ends nul below at_ enough
      | pipe => exact parsepipe_ends nul below at_ enough
      | exec =>
        simp only [parse, parseexec]
        obtain ⟨ps₁, peeked, at₁, -⟩ := peek_spec nul at_ ['('] rfl
        simp only [peeked]
        cases opened : opens ['('] ts with
        | false => exact parseexec_simple nul at₁
        | true =>
          obtain ⟨rest, rfl⟩ := opens_one .left rfl (by decide) opened
          simp only [rank, List.length_cons] at enough
          cases depth with
          | zero => omega
          | succ depth =>
            exact parseblock_ends nul (ih depth (by omega)) at₁ (by omega)

/-- The tokens that may follow a command of this kind. -/
def follow : Kind → List Token
  | .line => [.right]
  | .pipe => [.right, .amp, .semi]
  | .exec => [.right, .amp, .semi, .bar]

/-- The command ends here. -/
def Stops (kind : Kind) (ts : List Token) : Prop := ∀ t rest, ts = t :: rest → t ∈ follow kind

variable {us ts' : List Token} {cmd : Cmd} {rs rs' : List Redirection} {ws ws' : List (Nat × Nat)}
  {rounds argc : Nat} {kind : Kind}

theorem stops_cons {t : Token} (h : t ∈ follow kind) (rest : List Token) :
    Stops kind (t :: rest) := by
  intro u rest' same
  cases same
  exact h

theorem Stops.up {kind' : Kind} (h : Stops kind ts) (more : ∀ t ∈ follow kind, t ∈ follow kind') :
    Stops kind' ts := fun t rest same => more t (h t rest same)

/-- A token that does not follow a command is not looked for when it ends. -/
theorem Stops.closed {toks : List Char} (h : Stops kind ts)
    (other : ∀ t ∈ follow kind, (first t).any (strchr toks) = false) : opens toks ts = false := by
  cases ts with
  | nil => rfl
  | cons t rest => exact other t (h t rest rfl)

theorem more_rounds {k : Nat} (enough : k < rounds) : ∃ rest, rounds = rest + 1 :=
  Nat.exists_eq_add_one_of_ne_zero (Nat.ne_of_gt (Nat.zero_lt_of_lt enough))

theorem parseredirs_done (nul : NUL ∉ line) (redirs : Redirections us rs)
    (at_ : At line ps (us ++ ts')) (closed : opens ['<', '>'] ts' = false)
    (enough : us.length < rounds) :
    ∃ ps', parseredirs line rounds cmd ps = .ok (wrap rs cmd, ps') ∧ At line ps' ts' := by
  induction redirs generalizing ps cmd rounds with
  | nil =>
    obtain ⟨rounds, rfl⟩ := more_rounds enough
    obtain ⟨ps₁, peeked, at₁, -⟩ := peek_spec nul at_ ['<', '>'] rfl
    refine ⟨ps₁, ?_, at₁⟩
    simp only [parseredirs, peeked, List.nil_append, closed]
    rfl
  | @cons op q eq us rs redirs ih =>
    obtain ⟨rounds, rfl⟩ := more_rounds enough
    obtain ⟨ps₁, peeked, at₁, -⟩ := peek_spec nul at_ ['<', '>'] rfl
    obtain ⟨q₁, e₁, ps₂, taken, at₂, -⟩ := gettoken_spec nul at₁
    obtain ⟨q₂, e₂, ps₃, taken', at₃, word⟩ := gettoken_spec nul at₂
    obtain ⟨rfl, rfl⟩ := word q eq rfl
    have more : opens ['<', '>'] (.redir op :: .word q eq :: us ++ ts') = true := by
      cases op <;> rfl
    simp only [List.length_cons] at enough
    obtain ⟨ps', run, at'⟩ := @ih ps₃ ((⟨op, q, eq⟩ : Redirection).wrap cmd) rounds at₃ (by omega)
    refine ⟨ps', ?_, at'⟩
    simp only [parseredirs, peeked, more, taken, taken', redirection_made]
    exact run

/-- After the redirections comes a word or the end. -/
theorem arguments_closed (args : Arguments us ws' rs') (stop : Stops .exec ts') :
    opens ['<', '>'] (us ++ ts') = false := by
  cases args with
  | nil => exact stop.closed (by decide)
  | cons _ _ => rfl

theorem execLoop_done (nul : NUL ∉ line) (args : Arguments us ws' rs')
    (at_ : At line ps (us ++ ts')) (stop : Stops .exec ts') (enough : us.length < rounds)
    (few : argc + ws'.length ≤ MAXARGS - 1) :
    ∃ ps', execLoop line rounds (wrap rs (.exec ws)) argc ps =
      .ok (wrap (rs ++ rs') (.exec (ws ++ ws')), ps') ∧ At line ps' ts' := by
  induction args generalizing ps rs ws argc rounds with
  | nil =>
    obtain ⟨rounds, rfl⟩ := more_rounds enough
    obtain ⟨ps₁, peeked, at₁, -⟩ := peek_spec nul at_ ['|', ')', '&', ';'] rfl
    simp only [List.append_nil, List.nil_append] at peeked at₁ ⊢
    cases ts' with
    | nil =>
      refine ⟨_, ?_, (gettoken_end at₁).2⟩
      have none_ : opens ['|', ')', '&', ';'] [] = false := rfl
      simp only [execLoop, peeked, none_, (gettoken_end at₁).1]
      rfl
    | cons t rest =>
      have stops : opens ['|', ')', '&', ';'] (t :: rest) = true := by
        have all : ∀ t ∈ follow .exec, (first t).any (strchr ['|', ')', '&', ';']) = true := by
          decide
        exact all t (stop t rest rfl)
      refine ⟨ps₁, ?_, at₁⟩
      simp only [execLoop, peeked, stops]
      rfl
  | @cons q e us ts rs₁ ws₁ rs₂ redirs args ih =>
    obtain ⟨rounds, rfl⟩ := more_rounds enough
    obtain ⟨ps₁, peeked, at₁, -⟩ := peek_spec nul at_ ['|', ')', '&', ';'] rfl
    obtain ⟨q₁, e₁, ps₂, taken, at₂, word⟩ := gettoken_spec nul at₁
    obtain ⟨rfl, rfl⟩ := word q e rfl
    have more : opens ['|', ')', '&', ';'] (.word q e :: (us ++ ts) ++ ts') = false := rfl
    have at₂' : At line ps₂ (us ++ (ts ++ ts')) := by rwa [← List.append_assoc]
    have short := at₂'.length_le
    simp only [List.length_append, List.length_cons] at enough few short
    obtain ⟨ps₃, run, at₃⟩ := @parseredirs_done line ps₂ us (ts ++ ts')
      (wrap rs (.exec (ws ++ [(q, e)]))) rs₁ (line.length + 1) nul redirs at₂'
      (arguments_closed args stop) (by omega)
    obtain ⟨ps', run', at'⟩ := @ih ps₃ (rs ++ rs₁) (ws ++ [(q, e)]) rounds (argc + 1) at₃ (by omega)
      (by omega)
    refine ⟨ps', ?_, at'⟩
    have room : ¬ MAXARGS ≤ argc + 1 := by
      simp only [MAXARGS] at few ⊢
      omega
    rw [← wrap_append] at run
    simp only [execLoop, peeked, more, taken]
    have name : code (.word q e) = 'a' := rfl
    rw [if_neg (by decide), if_neg (code_some _), if_neg (not_not_intro name), if_neg room,
      addArg_wrap, run]
    simp only [Bind.bind, Except.bind]
    rw [run', List.append_assoc, List.append_assoc]
    rfl

theorem backLoop_done (nul : NUL ∉ line) (k : Nat) (at_ : At line ps (List.replicate k .amp ++ ts'))
    (closed : opens ['&'] ts' = false) (enough : k < rounds) :
    ∃ ps', backLoop line rounds cmd ps = .ok (Cmd.back^[k] cmd, ps') ∧ At line ps' ts' := by
  induction k generalizing ps cmd rounds with
  | zero =>
    obtain ⟨rounds, rfl⟩ := more_rounds enough
    obtain ⟨ps₁, peeked, at₁, -⟩ := peek_spec nul at_ ['&'] rfl
    refine ⟨ps₁, ?_, at₁⟩
    simp only [backLoop, peeked, List.replicate_zero, List.nil_append, closed]
    rfl
  | succ k ih =>
    obtain ⟨rounds, rfl⟩ := more_rounds enough
    rw [List.replicate_succ, List.cons_append] at at_
    obtain ⟨ps₁, peeked, at₁, -⟩ := peek_spec nul at_ ['&'] rfl
    obtain ⟨q, e, ps₂, taken, at₂, -⟩ := gettoken_spec nul at₁
    obtain ⟨ps', run, at'⟩ := @ih ps₂ (.back cmd) rounds at₂ (Nat.lt_of_succ_lt_succ enough)
    have more : opens ['&'] (.amp :: (List.replicate k .amp ++ ts')) = true := rfl
    refine ⟨ps', ?_, at'⟩
    simp only [backLoop, peeked, more, taken]
    exact run

/-- The call of this kind takes the tokens and returns the command. -/
def Takes (line : List Char) (kind : Kind) (us ts' : List Token) (cmd : Cmd) : Prop :=
  ∀ ps depth, At line ps (us ++ ts') → 4 * (us ++ ts').length + rank kind ≤ depth →
    ∃ ps', parse line kind depth ps = .ok (cmd, ps') ∧ At line ps' ts'

theorem depth_succ {k : Nat} (enough : 4 * ts.length + rank kind ≤ depth) (below : k < rank kind) :
    ∃ depth', depth = depth' + 1 ∧ 4 * ts.length + k ≤ depth' :=
  ⟨depth - 1, by omega, by omega⟩

theorem takes_simple (nul : NUL ∉ line) {ts : List Token} (redirs : Redirections us rs)
    (args : Arguments ts ws' rs') (few : ws'.length ≤ MAXARGS - 1) (stop : Stops .exec ts') :
    Takes line .exec (us ++ ts) ts' (wrap (rs ++ rs') (.exec ws')) := by
  intro ps depth at_ enough
  obtain ⟨depth, rfl, -⟩ := depth_succ enough (k := 1) (by decide)
  obtain ⟨ps₁, peeked, at₁, -⟩ := peek_spec nul at_ ['('] rfl
  have opened : opens ['('] (us ++ ts ++ ts') = false := by
    cases redirs with
    | nil =>
      cases args with
      | nil => exact stop.closed (by decide)
      | cons _ _ => rfl
    | @cons op q e us rs redirs => cases op <;> rfl
  rw [List.append_assoc] at at₁
  have short := at₁.length_le
  simp only [List.length_append] at short
  obtain ⟨ps₂, run, at₂⟩ := @parseredirs_done line ps₁ us (ts ++ ts') (.exec []) rs
    (line.length + 1) nul redirs at₁ (arguments_closed args stop) (by omega)
  obtain ⟨ps₃, run', at₃⟩ := @execLoop_done line ps₂ ts ts' rs rs' [] ws' (line.length + 1) 0 nul
    args at₂ stop (by omega) (by omega)
  refine ⟨ps₃, ?_, at₃⟩
  simp only [parse, parseexec, peeked, opened]
  rw [if_neg (by decide), run]
  exact run'

theorem takes_block (nul : NUL ∉ line) {ts : List Token}
    (inner : ∀ ts', Stops .line ts' → Takes line .line ts ts' cmd) (redirs : Redirections us rs)
    (stop : Stops .exec ts') :
    Takes line .exec (.left :: (ts ++ .right :: us)) ts' (wrap rs cmd) := by
  intro ps depth at_ enough
  have shape : .left :: (ts ++ .right :: us) ++ ts' = .left :: (ts ++ .right :: (us ++ ts')) := by
    simp only [List.append_assoc, List.cons_append]
  rw [shape] at at_ enough
  obtain ⟨depth, rfl, more⟩ := depth_succ enough (k := 1) (by decide)
  obtain ⟨depth, rfl⟩ : ∃ depth', depth = depth' + 1 := ⟨depth - 1, by omega⟩
  obtain ⟨ps₁, peeked, at₁, -⟩ := peek_spec nul at_ ['('] rfl
  obtain ⟨ps₂, peeked₂, at₂, -⟩ := peek_spec nul at₁ ['('] rfl
  obtain ⟨q, e, ps₃, taken, at₃, -⟩ := gettoken_spec nul at₂
  simp only [List.length_cons] at more
  obtain ⟨ps₄, run, at₄⟩ := inner (.right :: (us ++ ts')) (stops_cons (by decide) _) ps₃ depth at₃
    (by simp only [rank]; omega)
  obtain ⟨ps₅, peeked₅, at₅, -⟩ := peek_spec nul at₄ [')'] rfl
  obtain ⟨q', e', ps₆, taken', at₆, -⟩ := gettoken_spec nul at₅
  have short := at₆.length_le
  rw [List.length_append] at short
  obtain ⟨ps', run', at'⟩ := @parseredirs_done line ps₆ us ts' cmd rs (line.length + 1) nul redirs
    at₆ (stop.closed (by decide)) (by omega)
  have opened : opens ['('] (.left :: (ts ++ .right :: (us ++ ts'))) = true := rfl
  have closes : opens [')'] (.right :: (us ++ ts')) = true := rfl
  refine ⟨ps', ?_, at'⟩
  simp only [parse] at run
  simp only [parse, parseexec, parseblock, peeked, peeked₂, opened, taken]
  rw [if_pos trivial, if_neg (not_not_intro trivial), run]
  simp only [Bind.bind, Except.bind, peeked₅, closes, taken']
  exact run'

theorem takes_pipe (nul : NUL ∉ line) {us' : List Token} {cmd' : Cmd}
    (first : ∀ ts', Stops .exec ts' → Takes line .exec us ts' cmd)
    (rest : Takes line .pipe us' ts' cmd') :
    Takes line .pipe (us ++ .bar :: us') ts' (.pipe cmd cmd') := by
  intro ps depth at_ enough
  have shape : us ++ .bar :: us' ++ ts' = us ++ .bar :: (us' ++ ts') := by
    rw [List.append_assoc, List.cons_append]
  rw [shape] at at_ enough
  obtain ⟨depth, rfl, less⟩ := depth_succ enough (k := 2) (by decide)
  obtain ⟨ps₁, run, at₁⟩ :=
    first (.bar :: (us' ++ ts')) (stops_cons (by decide) _) ps depth at_ less
  obtain ⟨ps₂, peeked, at₂, -⟩ := peek_spec nul at₁ ['|'] rfl
  obtain ⟨q, e, ps₃, taken, at₃, -⟩ := gettoken_spec nul at₂
  rw [List.length_append, List.length_cons] at less
  obtain ⟨ps', run', at'⟩ := rest ps₃ depth at₃ (by simp only [rank]; omega)
  have more : opens ['|'] (.bar :: (us' ++ ts')) = true := rfl
  refine ⟨ps', ?_, at'⟩
  simp only [parse] at run run'
  simp only [parse, parsepipe, run, Bind.bind, Except.bind, peeked, more, taken, run']
  rfl

theorem takes_single (nul : NUL ∉ line) (first : Takes line .exec us ts' cmd)
    (stop : Stops .pipe ts') : Takes line .pipe us ts' cmd := by
  intro ps depth at_ enough
  obtain ⟨depth, rfl, less⟩ := depth_succ enough (k := 2) (by decide)
  obtain ⟨ps₁, run, at₁⟩ := first ps depth at_ less
  obtain ⟨ps₂, peeked, at₂, -⟩ := peek_spec nul at₁ ['|'] rfl
  have closed : opens ['|'] ts' = false := stop.closed (by decide)
  refine ⟨ps₂, ?_, at₂⟩
  simp only [parse] at run
  simp only [parse, parsepipe, run, Bind.bind, Except.bind, peeked, closed]
  rfl

theorem takes_last (nul : NUL ∉ line) (k : Nat)
    (first : ∀ ts', Stops .pipe ts' → Takes line .pipe us ts' cmd) (stop : Stops .line ts') :
    Takes line .line (us ++ List.replicate k .amp) ts' (Cmd.back^[k] cmd) := by
  intro ps depth at_ enough
  rw [List.append_assoc] at at_ enough
  obtain ⟨depth, rfl, less⟩ := depth_succ enough (k := 3) (by decide)
  have next : Stops .pipe (List.replicate k .amp ++ ts') := by
    cases k with
    | zero => exact stop.up (by decide)
    | succ k => exact stops_cons (by decide) _
  obtain ⟨ps₁, run, at₁⟩ := first _ next ps depth at_ less
  have short := at₁.length_le
  rw [List.length_append, List.length_replicate] at short
  obtain ⟨ps₂, run₂, at₂⟩ := @backLoop_done line ps₁ ts' cmd (line.length + 1) nul k at₁
    (stop.closed (by decide)) (by omega)
  obtain ⟨ps₃, peeked, at₃, -⟩ := peek_spec nul at₂ [';'] rfl
  have closed : opens [';'] ts' = false := stop.closed (by decide)
  refine ⟨ps₃, ?_, at₃⟩
  simp only [parse] at run
  simp only [parse, parseline, run, run₂, Bind.bind, Except.bind, peeked, closed]
  rfl

theorem takes_list (nul : NUL ∉ line) (k : Nat) {us' : List Token} {cmd' : Cmd}
    (first : ∀ ts', Stops .pipe ts' → Takes line .pipe us ts' cmd)
    (rest : Takes line .line us' ts' cmd') :
    Takes line .line (us ++ (List.replicate k .amp ++ .semi :: us')) ts'
      (.list (Cmd.back^[k] cmd) cmd') := by
  intro ps depth at_ enough
  have shape : us ++ (List.replicate k .amp ++ .semi :: us') ++ ts' =
      us ++ (List.replicate k .amp ++ .semi :: (us' ++ ts')) := by
    simp only [List.append_assoc, List.cons_append]
  rw [shape] at at_ enough
  obtain ⟨depth, rfl, less⟩ := depth_succ enough (k := 3) (by decide)
  have next : Stops .pipe (List.replicate k .amp ++ .semi :: (us' ++ ts')) := by
    cases k with
    | zero => exact stops_cons (by decide) _
    | succ k => exact stops_cons (by decide) _
  obtain ⟨ps₁, run, at₁⟩ := first _ next ps depth at_ less
  have short := at₁.length_le
  rw [List.length_append, List.length_replicate] at short
  obtain ⟨ps₂, run₂, at₂⟩ := @backLoop_done line ps₁ (.semi :: (us' ++ ts')) cmd (line.length + 1)
    nul k at₁ rfl (by omega)
  obtain ⟨ps₃, peeked, at₃, -⟩ := peek_spec nul at₂ [';'] rfl
  obtain ⟨q, e, ps₄, taken, at₄, -⟩ := gettoken_spec nul at₃
  simp only [List.length_append, List.length_cons] at less
  obtain ⟨ps', run', at'⟩ := rest ps₄ depth at₄ (by
    simp only [rank, List.length_append]
    omega)
  have more : opens [';'] (.semi :: (us' ++ ts')) = true := rfl
  refine ⟨ps', ?_, at'⟩
  simp only [parse] at run run'
  simp only [parse, parseline, run, run₂, Bind.bind, Except.bind, peeked, more, taken, run']
  rfl

/-- Every command of the grammar is parsed when its end follows. -/
theorem derives_takes (nul : NUL ∉ line) (derives : Derives kind us cmd) (ts' : List Token)
    (stop : Stops kind ts') : Takes line kind us ts' cmd := by
  induction derives generalizing ts' with
  | simple redirs args few => exact takes_simple nul redirs args few stop
  | block _ redirs inner => exact takes_block nul inner redirs stop
  | single _ first => exact takes_single nul (first ts' (stop.up (by decide))) stop
  | pipe _ _ first rest => exact takes_pipe nul first (rest ts' stop)
  | last k _ first => exact takes_last nul k first stop
  | list k _ _ first rest => exact takes_list nul k first (rest ts' stop)

theorem at_start (line : List Char) : At line 0 (tokens line) := ⟨rfl, Nat.zero_le _⟩

theorem enough_depth (line : List Char) :
    4 * (tokens line).length + rank .line ≤ 4 * line.length + 4 := by
  have short := (at_start line).length_le
  simp only [rank]
  omega

theorem parsecmd_iff (nul : NUL ∉ line) {buf : List Char} : parsecmd line = .ok (cmd, buf) ↔
    Derives .line (tokens line) cmd ∧ buf = nulterminate cmd (line ++ [NUL]) := by
  constructor
  · intro run
    have ends := parse_ends nul _ .line 0 _ (at_start line) (enough_depth line)
    simp only [parsecmd] at run
    cases parsed : parseline line (4 * line.length + 4) 0 with
    | error e =>
      rw [parsed] at run
      cases run
    | ok r =>
      obtain ⟨cmd', ps⟩ := r
      obtain ⟨us, ts', whole, derives, at'⟩ := ends.2 cmd' ps parsed
      obtain ⟨ps', peeked, at₂, -⟩ := peek_spec nul at' [] rfl
      simp only [parsed, Bind.bind, Except.bind, peeked] at run
      split at run
      · cases run
      · next behind =>
        cases run
        have none_ : ts' = [] := by
          have behind' : ps' = line.length := not_not.mp behind
          rw [← at₂.tokens, behind', List.drop_length, lex_nil]
        rw [whole, none_, List.append_nil]
        exact ⟨derives, rfl⟩
  · rintro ⟨derives, rfl⟩
    have whole : At line 0 (tokens line ++ []) := by
      rw [List.append_nil]
      exact at_start line
    have enough := enough_depth line
    obtain ⟨ps, run, at'⟩ := derives_takes nul derives [] nofun 0 (4 * line.length + 4) whole (by
      rwa [List.append_nil])
    obtain ⟨ps', peeked, -, behind⟩ := peek_spec nul at' [] rfl
    simp only [parse] at run
    simp only [parsecmd, run, Bind.bind, Except.bind, peeked, behind rfl]
    exact if_neg (not_not_intro rfl)

theorem parsecmd_ends (nul : NUL ∉ line) : parsecmd line ≠ .error .endless := by
  have ends := (parse_ends nul _ .line 0 _ (at_start line) (enough_depth line)).1
  intro run
  simp only [parsecmd] at run
  cases parsed : parseline line (4 * line.length + 4) 0 with
  | error e =>
    rw [parsed] at run
    cases run
    exact ends parsed
  | ok r =>
    simp only [parsed, Bind.bind, Except.bind] at run
    split at run <;> cases run

end ShellParses
