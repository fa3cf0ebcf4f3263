import Mathlib.Data.List.Basic
import Xv6.ShellParses

/-!
# The strings of a command

`nulterminate` writes into the line in which the strings are. Each write is behind a
word, where there is a blank, a symbol or the end, and a word has none of these; so the
strings are the texts of the words.
-/

namespace ShellStrings

open ShellGrammar ShellParser ShellParses ShellTokens

variable {line : List Char} {i ps q e : Nat} {ts : List Token} {cmd : Cmd} {buf : List Char}

/-- The strings that a command points at, with their ends. -/
def strings : Cmd → List (Nat × Nat)
  | .exec argv => argv
  | .redir cmd file efile _ _ => (file, efile) :: strings cmd
  | .pipe left right => strings left ++ strings right
  | .list left right => strings left ++ strings right
  | .back cmd => strings cmd

/-- What is read at a pointer. -/
def cstring (buf : List Char) (s : Nat) : List Char := (buf.drop s).takeWhile (· ≠ NUL)

/-- The characters from `q` to `e` are those of one word. -/
structure Word (line : List Char) (q e : Nat) : Prop where
  within : e ≤ line.length
  order : q ≤ e
  inside : ∀ i, q ≤ i → i < e → inWord (deref line i) = true
  ends : e = line.length ∨ inWord (deref line e) = false

theorem word_advance {k : Nat} (within : q ≤ line.length) (enough : line.length - q ≤ k) :
    Word line q (advance line inWord k q) := by
  induction k generalizing q with
  | zero => exact ⟨within, Nat.le_refl _, fun i le lt => absurd lt (Nat.not_lt_of_le le),
      .inl (by rw [advance]; omega)⟩
  | succ k ih =>
    rw [advance]
    by_cases more : q < line.length ∧ inWord (deref line q) = true
    · rw [if_pos more]
      have rest := @ih (q + 1) more.1 (by omega)
      refine ⟨rest.within, Nat.le_of_succ_le rest.order, fun i le lt => ?_, rest.ends⟩
      rcases Nat.eq_or_lt_of_le le with rfl | less
      · exact more.2
      · exact rest.inside i less lt
    · rw [if_neg more]
      refine ⟨within, Nat.le_refl _, fun i le lt => absurd lt (Nat.not_lt_of_le le), ?_⟩
      rcases Nat.eq_or_lt_of_le within with same | less
      · exact .inl same
      · exact .inr (Bool.eq_false_iff.mpr fun holds => more ⟨less, holds⟩)

theorem words_of (at_ : At line ps ts) (mem : .word q e ∈ ts) : Word line q e := by
  induction ts generalizing ps with
  | nil => cases mem
  | cons t ts ih =>
    cases left : line.drop (ShellParser.skip line ps) with
    | nil => cases (at_.skip.end_ left).1
    | cons c rest =>
      obtain ⟨t', e', ts', same, after, word, -, codes⟩ :=
        token_here at_.skip left (not_blank left)
      cases same
      rcases List.mem_cons.mp mem with rfl | there
      · obtain ⟨rfl, rfl⟩ := word q e rfl
        have ends : advance line inWord (line.length - ShellParser.skip line ps)
            (ShellParser.skip line ps) = e := by
          have name : code (.word (ShellParser.skip line ps) e) = 'a' := rfl
          rw [name, taken] at codes
          split at codes
          · next sym =>
            rw [(Prod.mk.inj codes).1] at sym
            exact absurd sym (by decide)
          · split at codes
            · next gt =>
              rw [gt] at codes
              split at codes <;> exact absurd (Prod.mk.inj codes).1 (by decide)
            · exact (Prod.mk.inj codes).2
        have whole := word_advance (k := line.length - ShellParser.skip line ps) at_.skip.within
          (Nat.le_refl _)
        rwa [ends] at whole
      · exact ih after there

theorem redirections_words {rs : List Redirection} (redirs : Redirections ts rs) {cmd : Cmd}
    (h : (q, e) ∈ strings (wrap rs cmd)) : .word q e ∈ ts ∨ (q, e) ∈ strings cmd := by
  induction redirs generalizing cmd with
  | nil => exact .inr h
  | @cons op a b ts rs redirs ih =>
    rcases ih h with there | here
    · exact .inl (List.mem_cons_of_mem _ (List.mem_cons_of_mem _ there))
    · have one : (q, e) = (a, b) ∨ (q, e) ∈ strings cmd := by
        cases op <;> exact List.mem_cons.mp here
      rcases one with same | inner
      · cases same
        exact .inl (List.mem_cons_of_mem _ List.mem_cons_self)
      · exact .inr inner

theorem arguments_words {ws : List (Nat × Nat)} {rs : List Redirection}
    (args : Arguments ts ws rs) :
    (∀ cmd, (q, e) ∈ strings (wrap rs cmd) → .word q e ∈ ts ∨ (q, e) ∈ strings cmd) ∧
      ((q, e) ∈ ws → .word q e ∈ ts) := by
  induction args with
  | nil => exact ⟨fun cmd => .inr, nofun⟩
  | @cons a b us ts rs ws rs' redirs args ih =>
    constructor
    · intro cmd h
      rw [wrap_append] at h
      rcases ih.1 _ h with there | inner
      · exact .inl (List.mem_cons_of_mem _ (List.mem_append_right _ there))
      · refine (redirections_words redirs inner).imp_left fun there => ?_
        exact List.mem_cons_of_mem _ (List.mem_append_left _ there)
    · intro h
      rcases List.mem_cons.mp h with same | there
      · cases same
        exact List.mem_cons_self
      · exact List.mem_cons_of_mem _ (List.mem_append_right _ (ih.2 there))

theorem strings_iterate (k : Nat) (cmd : Cmd) : strings (Cmd.back^[k] cmd) = strings cmd := by
  induction k generalizing cmd with
  | zero => rfl
  | succ k ih => exact ih (.back cmd)

/-- Each string of the command is a word of the line. -/
theorem derives_words {kind : Kind} (derives : Derives kind ts cmd) (h : (q, e) ∈ strings cmd) :
    .word q e ∈ ts := by
  induction derives with
  | simple redirs args few =>
    rw [wrap_append] at h
    rcases (arguments_words args).1 _ h with there | inner
    · exact List.mem_append_right _ there
    · rcases redirections_words redirs inner with there | mem
      · exact List.mem_append_left _ there
      · exact List.mem_append_right _ ((arguments_words args).2 mem)
  | block _ redirs ih =>
    refine List.mem_cons_of_mem _ (List.mem_append.mpr ?_)
    rcases redirections_words redirs h with there | inner
    · exact .inr (List.mem_cons_of_mem _ there)
    · exact .inl (ih inner)
  | single _ ih => exact ih h
  | pipe _ _ first rest =>
    refine List.mem_append.mpr ((List.mem_append.mp h).imp first fun there => ?_)
    exact List.mem_cons_of_mem _ (rest there)
  | last k _ ih =>
    rw [strings_iterate] at h
    exact List.mem_append_left _ (ih h)
  | list k _ _ first rest =>
    rw [strings, strings_iterate] at h
    refine List.mem_append.mpr ((List.mem_append.mp h).imp first fun there => ?_)
    exact List.mem_append_right _ (List.mem_cons_of_mem _ (rest there))

/-- There is a NUL at the end of each string of `S`, and nothing else is written. -/
structure Ended (S : List (Nat × Nat)) (buf buf' : List Char) : Prop where
  length : buf'.length = buf.length
  ends : ∀ q e, (q, e) ∈ S → e < buf.length → buf'[e]? = some NUL
  others : ∀ i, (∀ q, (q, i) ∉ S) → buf'[i]? = buf[i]?

theorem ended_one (q e : Nat) (buf : List Char) : Ended [(q, e)] buf (buf.set e NUL) := by
  refine ⟨List.length_set, fun q' e' mem less => ?_, fun i other => ?_⟩
  · cases List.mem_singleton.mp mem
    rw [List.getElem?_set_self less]
  · refine List.getElem?_set_ne ?_
    rintro rfl
    exact other q (List.mem_singleton.mpr rfl)

theorem Ended.append {S T : List (Nat × Nat)} {buf' buf'' : List Char} (first : Ended S buf buf')
    (next : Ended T buf' buf'') : Ended (S ++ T) buf buf'' := by
  refine ⟨next.length.trans first.length, fun q e mem less => ?_, fun i other => ?_⟩
  · by_cases again : ∃ q', (q', e) ∈ T
    · obtain ⟨q', mem'⟩ := again
      exact next.ends q' e mem' (by rwa [first.length])
    · have here := (List.mem_append.mp mem).resolve_right fun mem' => again ⟨q, mem'⟩
      rw [next.others e fun q' mem' => again ⟨q', mem'⟩]
      exact first.ends q e here less
  · rw [next.others i fun q mem => other q (List.mem_append_right _ mem)]
    exact first.others i fun q mem => other q (List.mem_append_left _ mem)

theorem Ended.congr {S T : List (Nat × Nat)} {buf' : List Char} (h : Ended S buf buf')
    (same : ∀ x, x ∈ T ↔ x ∈ S) : Ended T buf buf' := by
  refine ⟨h.length, fun q e mem => h.ends q e ((same _).mp mem), fun i other => ?_⟩
  exact h.others i fun q mem => other q ((same _).mpr mem)

theorem nulterminate_ended (cmd : Cmd) (buf : List Char) :
    Ended (strings cmd) buf (nulterminate cmd buf) := by
  induction cmd generalizing buf with
  | exec argv =>
    induction argv generalizing buf with
    | nil => exact ⟨rfl, nofun, fun _ _ => rfl⟩
    | cons arg argv ih => exact (ended_one arg.1 arg.2 buf).append (ih _)
  | redir cmd file efile mode fd ih =>
    refine ((ih buf).append (ended_one file efile _)).congr fun x => ?_
    simp [strings, or_comm]
  | pipe left right ihl ihr => exact (ihl buf).append (ihr _)
  | list left right ihl ihr => exact (ihl buf).append (ihr _)
  | back cmd ih => exact ih buf

theorem drop_of_get {l : List Char} {c : Char} (h : l[i]? = some c) :
    l.drop i = c :: l.drop (i + 1) := by
  obtain ⟨less, rfl⟩ := List.getElem?_eq_some_iff.mp h
  exact List.drop_eq_getElem_cons less

theorem cstring_eq {l : List Char} (nul : NUL ∉ l) {k : Nat} (within : q + k ≤ l.length)
    (text : ∀ i, q ≤ i → i < q + k → buf[i]? = l[i]?) (last : buf[q + k]? = some NUL) :
    cstring buf q = (l.drop q).take k := by
  induction k generalizing q with
  | zero =>
    rw [Nat.add_zero] at last
    rw [cstring, drop_of_get last, List.takeWhile_cons_of_neg (by decide), List.take_zero]
  | succ k ih =>
    obtain ⟨c, here⟩ : ∃ c, l[q]? = some c :=
      ⟨l[q], List.getElem?_eq_getElem (by omega)⟩
    have same : buf[q]? = some c := (text q (Nat.le_refl _) (by omega)).trans here
    have some_ : c ≠ NUL := by
      rintro rfl
      exact nul (List.mem_of_getElem? here)
    have rest := @ih (q + 1) (by omega) (fun i le lt => text i (by omega) (by omega))
      (by rwa [Nat.add_right_comm, Nat.add_assoc])
    rw [cstring] at rest
    rw [cstring, drop_of_get same, drop_of_get here,
      List.takeWhile_cons_of_pos (by simpa using some_), List.take_succ_cons, rest]

/-- No write is in a word. -/
theorem Word.apart {q' e' : Nat} (word : Word line q e) (other : Word line q' e') (le : q ≤ e') :
    e ≤ e' := by
  refine Nat.le_of_not_lt fun less => ?_
  rcases other.ends with behind | outside
  · have within := word.within
    omega
  · rw [word.inside e' le less] at outside
    cases outside

theorem strings_read (nul : NUL ∉ line) (run : parsecmd line = .ok (cmd, buf))
    (mem : (q, e) ∈ strings cmd) :
    .word q e ∈ tokens line ∧ cstring buf q = (line.drop q).take (e - q) := by
  obtain ⟨derives, rfl⟩ := (parsecmd_iff nul).mp run
  have token {q e : Nat} (mem : (q, e) ∈ strings cmd) : Word line q e :=
    words_of (at_start line) (derives_words derives mem)
  have word := token mem
  have ended := nulterminate_ended cmd (line ++ [NUL])
  have size : (line ++ [NUL]).length = line.length + 1 := List.length_append
  refine ⟨derives_words derives mem, ?_⟩
  obtain ⟨k, rfl⟩ := Nat.exists_eq_add_of_le word.order
  rw [Nat.add_sub_cancel_left]
  refine cstring_eq nul word.within (fun i le less => ?_) (ended.ends q _ mem ?_)
  · rw [ended.others i fun q' mem' => absurd (word.apart (token mem') le) (Nat.not_le_of_lt less),
      List.getElem?_append_left (Nat.lt_of_lt_of_le less word.within)]
  · rw [size]
    exact Nat.lt_succ_of_le word.within

/-- The parser takes just the lines of the grammar, with the tree that the grammar has, and each
string of the tree is the text of a word. -/
theorem parsecmd_spec (line : List Char) (nul : NUL ∉ line) : parsecmd line ≠ .error .endless ∧
    ∀ cmd buf, (parsecmd line = .ok (cmd, buf) ↔
        Derives .line (tokens line) cmd ∧ buf = nulterminate cmd (line ++ [NUL])) ∧
      (parsecmd line = .ok (cmd, buf) → ∀ q e, (q, e) ∈ strings cmd →
        .word q e ∈ tokens line ∧ cstring buf q = (line.drop q).take (e - q)) :=
  ⟨parsecmd_ends nul, fun _ _ => ⟨parsecmd_iff nul, fun run _ _ => strings_read nul run⟩⟩

/-- "ls>f&": the symbol behind a word is overwritten. -/
theorem parsecmd_spec_redirection : ∃ cmd buf,
    parsecmd ['l', 's', '>', 'f', '&'] = .ok (cmd, buf) ∧
      cmd = .back (.redir (.exec [(0, 2)]) 3 4 0x601 1) ∧
      Derives .line (tokens ['l', 's', '>', 'f', '&']) cmd ∧ cstring buf 3 = ['f'] := by
  have run : parsecmd ['l', 's', '>', 'f', '&'] = .ok (.back (.redir (.exec [(0, 2)]) 3 4 0x601 1),
      ['l', 's', NUL, 'f', NUL, NUL]) := by decide +kernel
  obtain ⟨-, spec⟩ := parsecmd_spec ['l', 's', '>', 'f', '&'] (by decide)
  obtain ⟨accepts, reads⟩ := spec _ _
  refine ⟨_, _, run, rfl, (accepts.mp run).1, ?_⟩
  exact (reads run 3 4 (by decide)).2

end ShellStrings
