import Mathlib.Data.List.Basic

/-!
# The parser of the shell

`parsecmd` and what it calls, over the characters of a line. A pointer into the line is
a position; what is behind the line is the NUL that ends it. The nodes of the tree that a
function returns hold positions, and `nulterminate` writes into the line at those.
-/

namespace ShellParser

def NUL : Char := Char.ofNat 0

/-- " \t\r\n\v" -/
def whitespace : List Char := [32, 9, 13, 10, 11].map Char.ofNat

def symbols : List Char := ['<', '|', '>', '&', ';', '(', ')']

def MAXARGS : Nat := 10

def O_RDONLY : Nat := 0x000
def O_WRONLY : Nat := 0x001
def O_CREATE : Nat := 0x200
def O_TRUNC : Nat := 0x400

/-- The command, with the first position of each string and the position behind it. -/
inductive Cmd
  | exec (argv : List (Nat × Nat))
  | redir (cmd : Cmd) (file efile mode fd : Nat)
  | pipe (left right : Cmd)
  | list (left right : Cmd)
  | back (cmd : Cmd)
  deriving DecidableEq

inductive Fault
  | panic (message : String)
  /-- The recursion or a loop does not come to an end. -/
  | endless
  deriving DecidableEq

abbrev Parsed := Except Fault (Cmd × Nat)

def strchr (s : List Char) (c : Char) : Bool := s.contains c

def deref (line : List Char) (s : Nat) : Char := line.getD s NUL

/-- `while(s < es && ...) s++`, for at most so many characters. -/
def advance (line : List Char) (test : Char → Bool) : Nat → Nat → Nat
  | 0, s => s
  | more + 1, s =>
    if s < line.length ∧ test (deref line s) then advance line test more (s + 1) else s

def blank (c : Char) : Bool := strchr whitespace c

def inWord (c : Char) : Bool := ¬ strchr whitespace c ∧ ¬ strchr symbols c

def skip (line : List Char) (s : Nat) : Nat := advance line blank (line.length - s) s

/-- What `gettoken` returns and stores. -/
structure Got where
  ret : Char
  q : Nat
  eq : Nat
  ps : Nat
  deriving DecidableEq

def gettoken (line : List Char) (ps : Nat) : Got :=
  let q := skip line ps
  let c := deref line q
  let (ret, eq) :=
    if c = NUL then (c, q)
    else if c ∈ ['|', '(', ')', ';', '&', '<'] then (c, q + 1)
    else if c = '>' then
      if deref line (q + 1) = '>' then ('+', q + 2) else (c, q + 1)
    else ('a', advance line inWord (line.length - q) q)
  ⟨ret, q, eq, skip line eq⟩

def peek (line : List Char) (toks : List Char) (ps : Nat) : Bool × Nat :=
  let s := skip line ps
  (deref line s ≠ NUL ∧ strchr toks (deref line s), s)

/-- Stores an argument in the `execcmd`, below the redirections. -/
def addArg (q eq : Nat) : Cmd → Cmd
  | .exec argv => .exec (argv ++ [(q, eq)])
  | .redir cmd file efile mode fd => .redir (addArg q eq cmd) file efile mode fd
  | cmd => cmd

def parseredirs (line : List Char) : Nat → Cmd → Nat → Parsed
  | 0, _, _ => .error .endless
  | rounds + 1, cmd, ps =>
    let (more, ps) := peek line ['<', '>'] ps
    if ¬ more then .ok (cmd, ps)
    else
      let op := gettoken line ps
      let name := gettoken line op.ps
      if name.ret ≠ 'a' then .error (.panic "missing file for redirection")
      else
        let cmd :=
          if op.ret = '<' then .redir cmd name.q name.eq O_RDONLY 0
          else if op.ret = '>' then .redir cmd name.q name.eq (O_WRONLY ||| O_CREATE ||| O_TRUNC) 1
          else if op.ret = '+' then .redir cmd name.q name.eq (O_WRONLY ||| O_CREATE) 1
          else cmd
        parseredirs line rounds cmd name.ps

/-- The loop of `parseexec`. -/
def execLoop (line : List Char) : Nat → Cmd → Nat → Nat → Parsed
  | 0, _, _, _ => .error .endless
  | rounds + 1, ret, argc, ps =>
    let (stop, ps) := peek line ['|', ')', '&', ';'] ps
    if stop then .ok (ret, ps)
    else
      let word := gettoken line ps
      if word.ret = NUL then .ok (ret, word.ps)
      else if word.ret ≠ 'a' then .error (.panic "syntax")
      else if MAXARGS ≤ argc + 1 then .error (.panic "too many args")
      else do
        let (ret, ps) ← parseredirs line (line.length + 1) (addArg word.q word.eq ret) word.ps
        execLoop line rounds ret (argc + 1) ps

/-- The loop of `parseline`. -/
def backLoop (line : List Char) : Nat → Cmd → Nat → Parsed
  | 0, _, _ => .error .endless
  | rounds + 1, cmd, ps =>
    let (more, ps) := peek line ['&'] ps
    if ¬ more then .ok (cmd, ps) else backLoop line rounds (.back cmd) (gettoken line ps).ps

mutual

def parseline (line : List Char) : Nat → Nat → Parsed
  | 0, _ => .error .endless
  | depth + 1, ps => do
    let (cmd, ps) ← parsepipe line depth ps
    let (cmd, ps) ← backLoop line (line.length + 1) cmd ps
    let (more, ps) := peek line [';'] ps
    if ¬ more then .ok (cmd, ps)
    else
      let (right, ps) ← parseline line depth (gettoken line ps).ps
      .ok (.list cmd right, ps)

def parsepipe (line : List Char) : Nat → Nat → Parsed
  | 0, _ => .error .endless
  | depth + 1, ps => do
    let (cmd, ps) ← parseexec line depth ps
    let (more, ps) := peek line ['|'] ps
    if ¬ more then .ok (cmd, ps)
    else
      let (right, ps) ← parsepipe line depth (gettoken line ps).ps
      .ok (.pipe cmd right, ps)

def parseexec (line : List Char) : Nat → Nat → Parsed
  | 0, _ => .error .endless
  | depth + 1, ps =>
    let (opens, ps) := peek line ['('] ps
    if opens then parseblock line depth ps
    else do
      let (ret, ps) ← parseredirs line (line.length + 1) (.exec []) ps
      execLoop line (line.length + 1) ret 0 ps

def parseblock (line : List Char) : Nat → Nat → Parsed
  | 0, _ => .error .endless
  | depth + 1, ps =>
    let (opens, ps) := peek line ['('] ps
    if ¬ opens then .error (.panic "parseblock")
    else do
      let (cmd, ps) ← parseline line depth (gettoken line ps).ps
      let (closes, ps) := peek line [')'] ps
      if ¬ closes then .error (.panic "syntax - missing )")
      else parseredirs line (line.length + 1) cmd (gettoken line ps).ps

end

/-- The line and its NUL, after the strings of the command are ended. -/
def nulterminate : Cmd → List Char → List Char
  | .exec argv, buf => argv.foldl (fun buf arg => buf.set arg.2 NUL) buf
  | .redir cmd _ efile _ _, buf => (nulterminate cmd buf).set efile NUL
  | .pipe left right, buf => nulterminate right (nulterminate left buf)
  | .list left right, buf => nulterminate right (nulterminate left buf)
  | .back cmd, buf => nulterminate cmd buf

def parsecmd (line : List Char) : Except Fault (Cmd × List Char) := do
  let (cmd, ps) ← parseline line (4 * line.length + 4) 0
  let (_, ps) := peek line [] ps
  if ps ≠ line.length then .error (.panic "syntax")
  else .ok (cmd, nulterminate cmd (line ++ [NUL]))

end ShellParser
