import Mathlib.Logic.Function.Iterate
import Xv6.ShellParser

/-!
# The grammar of the shell

The tokens of a line, and which command a list of tokens stands for:

    line = pipe {'&'} [';' line]
    pipe = exec ['|' pipe]
    exec = redirections {word redirections} or '(' line ')' redirections

A word is its two positions in the line.
-/

namespace ShellGrammar

open ShellParser

inductive Op
  | input | output | append
  deriving DecidableEq

inductive Token
  | word (q eq : Nat)
  | redir (op : Op)
  | bar | amp | semi | left | right
  deriving DecidableEq

/-- The symbols of one character, except the one that may begin a longer one. -/
def symbol (c : Char) : Option Token :=
  if c = '|' then some .bar
  else if c = '(' then some .left
  else if c = ')' then some .right
  else if c = ';' then some .semi
  else if c = '&' then some .amp
  else if c = '<' then some (.redir .input)
  else none

/-- The tokens of what is left of a line from position `i` on. -/
def lex (i : Nat) : List Char → List Token
  | [] => []
  | c :: rest =>
    if blank c then lex (i + 1) rest
    else match symbol c with
      | some t => t :: lex (i + 1) rest
      | none =>
        if c = '>' then
          if rest.head? = some '>' then .redir .append :: lex (i + 2) (rest.drop 1)
          else .redir .output :: lex (i + 1) rest
        else
          let k := (rest.takeWhile inWord).length
          .word i (i + 1 + k) :: lex (i + 1 + k) (rest.drop k)
  termination_by chars => chars.length
  decreasing_by all_goals simp only [List.length_cons, List.length_drop]; omega

def tokens (line : List Char) : List Token := lex 0 line

/-- A redirection to the file whose name is a word. -/
structure Redirection where
  op : Op
  q : Nat
  eq : Nat

def Redirection.wrap (r : Redirection) (cmd : Cmd) : Cmd :=
  match r.op with
  | .input => .redir cmd r.q r.eq O_RDONLY 0
  | .output => .redir cmd r.q r.eq (O_WRONLY ||| O_CREATE ||| O_TRUNC) 1
  | .append => .redir cmd r.q r.eq (O_WRONLY ||| O_CREATE) 1

/-- The last redirection is the outermost. -/
def wrap (rs : List Redirection) (cmd : Cmd) : Cmd := rs.foldl (fun cmd r => r.wrap cmd) cmd

inductive Redirections : List Token → List Redirection → Prop
  | nil : Redirections [] []
  | cons {op q eq ts rs} (rest : Redirections ts rs) :
      Redirections (.redir op :: .word q eq :: ts) (⟨op, q, eq⟩ :: rs)

inductive Arguments : List Token → List (Nat × Nat) → List Redirection → Prop
  | nil : Arguments [] [] []
  | cons {q eq us ts rs ws rs'} (redirs : Redirections us rs) (rest : Arguments ts ws rs') :
      Arguments (.word q eq :: (us ++ ts)) ((q, eq) :: ws) (rs ++ rs')

inductive Kind
  | line | pipe | exec
  deriving DecidableEq

inductive Derives : Kind → List Token → Cmd → Prop
  | simple {us ts rs ws rs'} (redirs : Redirections us rs) (args : Arguments ts ws rs')
      (few : ws.length ≤ MAXARGS - 1) : Derives .exec (us ++ ts) (wrap (rs ++ rs') (.exec ws))
  | block {ts us rs cmd} (inner : Derives .line ts cmd) (redirs : Redirections us rs) :
      Derives .exec (.left :: (ts ++ .right :: us)) (wrap rs cmd)
  | single {ts cmd} (first : Derives .exec ts cmd) : Derives .pipe ts cmd
  | pipe {ts us cmd cmd'} (first : Derives .exec ts cmd) (rest : Derives .pipe us cmd') :
      Derives .pipe (ts ++ .bar :: us) (.pipe cmd cmd')
  | last {ts cmd} (k : Nat) (first : Derives .pipe ts cmd) :
      Derives .line (ts ++ List.replicate k .amp) (Cmd.back^[k] cmd)
  | list {ts us cmd cmd'} (k : Nat) (first : Derives .pipe ts cmd) (rest : Derives .line us cmd') :
      Derives .line (ts ++ (List.replicate k .amp ++ .semi :: us)) (.list (Cmd.back^[k] cmd) cmd')

end ShellGrammar
