import Xv6.ShellGrammar

/-!
# Reading tokens

At every position the rest of the line has its tokens. `peek` looks at the first one, and
`gettoken` takes it; both go over the blanks, where no token is.
-/

namespace ShellTokens

open ShellGrammar ShellParser

variable {line : List Char} {i k ps : Nat} {ts : List Token} {t : Token} {c : Char}
  {rest toks : List Char}

theorem deref_drop (h : line.drop i = c :: rest) : deref line i = c := by
  have there : (line.drop i).head? = some c := by rw [h, List.head?_cons]
  rw [List.head?_drop] at there
  rw [deref, List.getD_eq_getElem?_getD, there, Option.getD_some]

theorem lt_of_drop (h : line.drop i = c :: rest) : i < line.length := by
  have some_ : (line.drop i).length ≠ 0 := by
    rw [h]
    exact Nat.succ_ne_zero _
  rw [List.length_drop] at some_
  omega

theorem drop_next (h : line.drop i = c :: rest) : line.drop (i + 1) = rest := by
  rw [← List.drop_drop, h, List.drop_one, List.tail_cons]

theorem advance_eq {test : Char → Bool} (enough : line.length - i ≤ k) :
    advance line test k i = i + ((line.drop i).takeWhile test).length := by
  induction k generalizing i with
  | zero =>
    rw [List.drop_of_length_le (by omega)]
    rfl
  | succ k ih =>
    rw [advance]
    cases left : line.drop i with
    | nil =>
      have behind := List.drop_eq_nil_iff.mp left
      rw [if_neg fun h => absurd h.1 (Nat.not_lt_of_le behind)]
      rfl
    | cons c rest =>
      rw [deref_drop left]
      by_cases holds : test c = true
      · rw [if_pos ⟨lt_of_drop left, holds⟩, ih (by omega), drop_next left,
          List.takeWhile_cons_of_pos holds, List.length_cons]
        omega
      · rw [if_neg fun h => holds h.2, List.takeWhile_cons_of_neg holds]
        rfl

theorem drop_takeWhile (test : Char → Bool) (l : List Char) :
    l.drop (l.takeWhile test).length = l.dropWhile test :=
  (congrArg (List.drop _) List.takeWhile_append_dropWhile.symm).trans List.drop_left

theorem skip_eq : skip line i = i + ((line.drop i).takeWhile blank).length :=
  advance_eq (Nat.le_refl _)

theorem drop_skip : line.drop (skip line i) = (line.drop i).dropWhile blank := by
  rw [skip_eq, ← List.drop_drop, drop_takeWhile]

theorem not_blank (h : line.drop (skip line i) = c :: rest) : blank c = false := by
  rw [drop_skip] at h
  have some_ : (line.drop i).dropWhile blank ≠ [] := by
    rw [h]
    exact List.cons_ne_nil _ _
  have first := List.head_dropWhile_not blank some_
  simpa only [h, List.head_cons] using first

/-- The first character of a token that is not a word. -/
def first : Token → Option Char
  | .word _ _ => none
  | .redir .input => some '<'
  | .redir _ => some '>'
  | .bar => some '|'
  | .amp => some '&'
  | .semi => some ';'
  | .left => some '('
  | .right => some ')'

/-- What `gettoken` returns. -/
def code : Token → Char
  | .word _ _ => 'a'
  | .redir .append => '+'
  | .redir .output => '>'
  | .redir .input => '<'
  | .bar => '|'
  | .amp => '&'
  | .semi => ';'
  | .left => '('
  | .right => ')'

/-- What `peek` returns. -/
def opens (toks : List Char) (ts : List Token) : Bool :=
  (ts.head?.bind first).any (strchr toks)

theorem symbol_some (h : c ∈ ['|', '(', ')', ';', '&', '<']) :
    ∃ t, symbol c = some t ∧ code t = c ∧ first t = some c ∧ ∀ q eq, t ≠ .word q eq := by
  simp only [List.mem_cons, List.not_mem_nil, or_false] at h
  rcases h with rfl | rfl | rfl | rfl | rfl | rfl
  · exact ⟨.bar, rfl, rfl, rfl, nofun⟩
  · exact ⟨.left, rfl, rfl, rfl, nofun⟩
  · exact ⟨.right, rfl, rfl, rfl, nofun⟩
  · exact ⟨.semi, rfl, rfl, rfl, nofun⟩
  · exact ⟨.amp, rfl, rfl, rfl, nofun⟩
  · exact ⟨.redir .input, rfl, rfl, rfl, nofun⟩

theorem symbol_none (h : c ∉ ['|', '(', ')', ';', '&', '<']) : symbol c = none := by
  simp only [List.mem_cons, List.not_mem_nil, or_false, not_or] at h
  obtain ⟨h1, h2, h3, h4, h5, h6⟩ := h
  simp only [symbol, h1, h2, h3, h4, h5, h6, if_false]

theorem lex_nil : lex i [] = [] := by
  rw [lex]

theorem lex_blank (h : blank c = true) : lex i (c :: rest) = lex (i + 1) rest := by
  rw [lex, if_pos h]

theorem lex_symbol (h : blank c = false) (sym : symbol c = some t) :
    lex i (c :: rest) = t :: lex (i + 1) rest := by
  rw [lex, if_neg (by rw [h]; decide), sym]

theorem lex_append (rest : List Char) :
    lex i ('>' :: '>' :: rest) = .redir .append :: lex (i + 2) rest := by
  rw [lex, if_neg (by decide)]
  rfl

theorem lex_output (other : rest.head? ≠ some '>') :
    lex i ('>' :: rest) = .redir .output :: lex (i + 1) rest := by
  rw [lex, if_neg (by decide)]
  have sym : symbol '>' = none := rfl
  simp only [sym, if_true, if_neg other]

theorem lex_word (h : blank c = false) (sym : symbol c = none) (other : c ≠ '>') :
    lex i (c :: rest) = .word i (i + 1 + (rest.takeWhile inWord).length) ::
      lex (i + 1 + (rest.takeWhile inWord).length) (rest.dropWhile inWord) := by
  rw [lex, if_neg (by rw [h]; decide), sym]
  simp only [if_neg other, drop_takeWhile]

theorem lex_dropWhile (chars : List Char) :
    lex (i + (chars.takeWhile blank).length) (chars.dropWhile blank) = lex i chars := by
  induction chars generalizing i with
  | nil => rfl
  | cons c rest ih =>
    cases h : blank c with
    | true =>
      rw [List.takeWhile_cons_of_pos h, List.dropWhile_cons_of_pos h, lex_blank h, ← ih,
        List.length_cons, Nat.add_assoc i 1, Nat.add_comm 1]
    | false =>
      rw [List.takeWhile_cons_of_neg (by rw [h]; decide),
        List.dropWhile_cons_of_neg (by rw [h]; decide)]
      rfl

structure At (line : List Char) (ps : Nat) (ts : List Token) : Prop where
  tokens : lex ps (line.drop ps) = ts
  within : ps ≤ line.length

theorem lex_length (i : Nat) (chars : List Char) : (lex i chars).length ≤ chars.length := by
  fun_induction lex i chars with
  | case1 => exact Nat.le_refl _
  | case2 i c rest _ ih => exact Nat.le_succ_of_le ih
  | case3 i c rest _ t _ ih => exact Nat.succ_le_succ ih
  | case4 i rest _ _ _ ih =>
    rw [List.length_drop] at ih
    simp only [List.length_cons]
    omega
  | case5 i rest _ _ _ ih => exact Nat.succ_le_succ ih
  | case6 i c rest _ _ _ k ih =>
    rw [List.length_drop] at ih
    simp only [List.length_cons]
    omega

theorem At.length_le (at_ : At line ps ts) : ts.length ≤ line.length := by
  have most := lex_length ps (line.drop ps)
  rw [at_.tokens, List.length_drop] at most
  omega

theorem At.skip (at_ : At line ps ts) : At line (skip line ps) ts := by
  refine ⟨?_, ?_⟩
  · rw [drop_skip, skip_eq, lex_dropWhile, at_.tokens]
  · rw [skip_eq]
    have short := (List.takeWhile_sublist blank (l := line.drop ps)).length_le
    have within := at_.within
    rw [List.length_drop] at short
    omega

theorem At.end_ (at_ : At line ps ts) (h : line.drop ps = []) : ts = [] ∧ ps = line.length := by
  refine ⟨?_, Nat.le_antisymm at_.within (List.drop_eq_nil_iff.mp h)⟩
  rw [← at_.tokens, h, lex_nil]

theorem takeWhile_within {test : Char → Bool} (within : i ≤ line.length) :
    i + ((line.drop i).takeWhile test).length ≤ line.length := by
  have short := (List.takeWhile_sublist (l := line.drop i) test).length_le
  rw [List.length_drop] at short
  omega

/-- What `gettoken` makes of a character: what it returns, and where the token ends. -/
def taken (line : List Char) (i : Nat) (c : Char) : Char × Nat :=
  if c ∈ ['|', '(', ')', ';', '&', '<'] then (c, i + 1)
  else if c = '>' then if deref line (i + 1) = '>' then ('+', i + 2) else (c, i + 1)
  else ('a', advance line inWord (line.length - i) i)

/-- The token that begins at a position, with the position behind it. -/
def Begins (line : List Char) (i : Nat) (c : Char) (ts : List Token) : Prop :=
  ∃ t e ts', ts = t :: ts' ∧ At line e ts' ∧ (∀ a b, t = .word a b → a = i ∧ b = e) ∧
    first t = (if c ∈ symbols then some c else none) ∧ taken line i c = (code t, e)

theorem begins_symbol (at_ : At line i ts) (left : line.drop i = c :: rest)
    (solid : blank c = false) (sym : c ∈ ['|', '(', ')', ';', '&', '<']) : Begins line i c ts := by
  have here := at_.tokens
  obtain ⟨t, some_, codes, firsts, noWord⟩ := symbol_some sym
  rw [left, lex_symbol solid some_] at here
  have next : At line (i + 1) (lex (i + 1) rest) := ⟨by rw [drop_next left], lt_of_drop left⟩
  refine ⟨t, i + 1, _, here.symm, next, fun a b same => absurd same (noWord a b), ?_, ?_⟩
  · have mem : c ∈ symbols := by
      revert sym
      simp only [symbols, List.mem_cons, List.not_mem_nil, or_false]
      tauto
    rw [if_pos mem, firsts]
  · rw [taken, if_pos sym, codes]

theorem begins_output (at_ : At line i ts) (left : line.drop i = '>' :: rest) :
    Begins line i '>' ts := by
  have here := at_.tokens
  rw [left] at here
  have one : taken line i '>' =
      if deref line (i + 1) = '>' then ('+', i + 2) else ('>', i + 1) := by
    rw [taken, if_neg (by decide), if_pos rfl]
  by_cases twice : rest.head? = some '>'
  · obtain ⟨rest', rfl⟩ : ∃ rest', rest = '>' :: rest' := List.head?_eq_some_iff.mp twice
    have left' := drop_next left
    rw [lex_append] at here
    refine ⟨.redir .append, i + 2, _, here.symm, ⟨?_, lt_of_drop left'⟩, nofun, rfl, ?_⟩
    · rw [drop_next left']
    · rw [one, if_pos (deref_drop left')]
      rfl
  · have next : At line (i + 1) (lex (i + 1) rest) := ⟨by rw [drop_next left], lt_of_drop left⟩
    rw [lex_output twice] at here
    refine ⟨.redir .output, i + 1, _, here.symm, next, nofun, rfl, ?_⟩
    have other : deref line (i + 1) ≠ '>' := by
      intro same
      rw [deref, List.getD_eq_getElem?_getD, ← List.head?_drop, drop_next left] at same
      cases head : rest.head? with
      | none =>
        rw [head] at same
        exact absurd same (by decide)
      | some d =>
        rw [head, Option.getD_some] at same
        exact twice (by rw [head, same])
    rw [one, if_neg other]
    rfl

theorem begins_word (at_ : At line i ts) (left : line.drop i = c :: rest) (solid : blank c = false)
    (sym : c ∉ ['|', '(', ')', ';', '&', '<']) (gt : c ≠ '>') : Begins line i c ts := by
  have here := at_.tokens
  have plain : c ∉ symbols := by
    intro mem
    revert mem sym gt
    simp only [symbols, List.mem_cons, List.not_mem_nil, or_false]
    tauto
  have begins : inWord c = true := by
    have solid' : c ∉ whitespace := by simpa [blank, strchr] using solid
    simp [inWord, strchr, plain, solid']
  rw [left, lex_word solid (symbol_none sym) gt] at here
  have size : (line.drop i).takeWhile inWord = c :: rest.takeWhile inWord := by
    rw [left, List.takeWhile_cons_of_pos begins]
  have ends : i + ((line.drop i).takeWhile inWord).length =
      i + 1 + (rest.takeWhile inWord).length := by
    rw [size, List.length_cons]
    omega
  refine ⟨_, i + 1 + (rest.takeWhile inWord).length, _, here.symm, ⟨?_, ?_⟩, ?_, ?_, ?_⟩
  · rw [← List.drop_drop, drop_next left, drop_takeWhile]
  · rw [← ends]
    exact takeWhile_within at_.within
  · intro a b same
    exact ⟨(Token.word.inj same).1.symm, (Token.word.inj same).2.symm⟩
  · rw [if_neg plain]
    rfl
  · rw [taken, if_neg sym, if_neg gt, advance_eq (Nat.le_refl _), ends]
    rfl

theorem token_here (at_ : At line i ts) (left : line.drop i = c :: rest) (solid : blank c = false) :
    Begins line i c ts := by
  by_cases sym : c ∈ ['|', '(', ')', ';', '&', '<']
  · exact begins_symbol at_ left solid sym
  · by_cases gt : c = '>'
    · subst gt
      exact begins_output at_ left
    · exact begins_word at_ left solid sym gt

theorem deref_nul (nul : NUL ∉ line) (left : line.drop i = c :: rest) : c ≠ NUL := by
  rintro rfl
  exact nul (List.mem_of_mem_drop (by rw [left]; exact List.mem_cons_self))

theorem deref_end (h : line.length ≤ i) : deref line i = NUL := by
  rw [deref, List.getD_eq_getElem?_getD, List.getElem?_eq_none h, Option.getD_none]

theorem peek_spec (nul : NUL ∉ line) (at_ : At line ps ts) (toks : List Char)
    (known : toks.all symbols.contains = true) :
    ∃ ps', peek line toks ps = (opens toks ts, ps') ∧ At line ps' ts ∧
      (ts = [] → ps' = line.length) := by
  refine ⟨ShellParser.skip line ps, ?_, at_.skip, ?_⟩
  · rw [peek]
    cases left : line.drop (ShellParser.skip line ps) with
    | nil =>
      obtain ⟨rfl, behind⟩ := at_.skip.end_ left
      rw [behind, deref_end (Nat.le_refl _)]
      rfl
    | cons c rest =>
      obtain ⟨t, e, ts', rfl, -, -, firsts, -⟩ := token_here at_.skip left (not_blank left)
      rw [deref_drop left]
      have some_ := deref_nul nul left
      by_cases mem : c ∈ symbols
      · rw [if_pos mem] at firsts
        simp [opens, firsts, some_]
      · rw [if_neg mem] at firsts
        have out : strchr toks c = false := by
          simp only [strchr, List.contains_eq_mem, decide_eq_false_iff_not]
          exact fun h => mem (List.contains_iff_mem.mp (List.all_eq_true.mp known c h))
        simp [opens, firsts, out]
  · rintro rfl
    cases left : line.drop (ShellParser.skip line ps) with
    | nil => exact (at_.skip.end_ left).2
    | cons c rest =>
      obtain ⟨t, e, ts', same, -⟩ := token_here at_.skip left (not_blank left)
      cases same

theorem gettoken_spec (nul : NUL ∉ line) (at_ : At line ps (t :: ts)) :
    ∃ q e ps', gettoken line ps = ⟨code t, q, e, ps'⟩ ∧ At line ps' ts ∧
      ∀ a b, t = .word a b → a = q ∧ b = e := by
  cases left : line.drop (ShellParser.skip line ps) with
  | nil => cases (at_.skip.end_ left).1
  | cons c rest =>
    obtain ⟨t', e, ts', same, after, word, -, codes⟩ :=
      token_here at_.skip left (not_blank left)
    cases same
    refine ⟨ShellParser.skip line ps, e, ShellParser.skip line e, ?_, after.skip, word⟩
    rw [taken] at codes
    rw [gettoken, deref_drop left, if_neg (deref_nul nul left), codes]

theorem gettoken_end (at_ : At line ps []) : (gettoken line ps).ret = NUL ∧
    At line (gettoken line ps).ps [] := by
  have behind : ShellParser.skip line ps = line.length := by
    cases left : line.drop (ShellParser.skip line ps) with
    | nil => exact (at_.skip.end_ left).2
    | cons c rest =>
      obtain ⟨t, e, ts', same, -⟩ := token_here at_.skip left (not_blank left)
      cases same
  rw [gettoken, behind, deref_end (Nat.le_refl _), if_pos rfl]
  refine ⟨rfl, ?_⟩
  have here : At line line.length [] := by rw [← behind]; exact at_.skip
  exact here.skip

end ShellTokens
