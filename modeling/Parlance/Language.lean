import Parlance.Job.Schedule
import Parlance.Language.Derive
import Parlance.Language.Parse

/-
  Languages: a vocabulary and the expression that a whole program is. Nothing may be left over
  when the root has been read.
-/

namespace Parlance

/-- A named root expression over a vocabulary. -/
structure Language (ι W V : Type) where
  name : String
  root : Expr ι V
  vocabulary : Vocabulary ι W V

namespace Language

variable {ι W V : Type}

/-- The tag of whole programs. -/
def tag (l : Language ι W V) : String := "l." ++ l.name

/-- Reads a program to its end; a word that is left over is an error. -/
def parseFrom (l : Language ι W V) (c : Cursor) : Reply (Program ι W V) :=
  (l.root.parse l.vocabulary c).andThen fun p c =>
    match c.next l.tag with
    | .ok (token, ahead) => .rejected (.trailing token.value token.position) ahead
    | .error _ => .accepted p c

/-- Reads a list of words as a program. -/
def parse (l : Language ι W V) (tokens : List String) : Reply (Program ι W V) :=
  l.parseFrom (.ofTokens tokens)

/-- The trace of a whole program. -/
def trace (l : Language ι W V) (p : Program ι W V) : Trace := .branch l.tag [p.trace]

/-- Reads a list of words and runs the program. Words that are refused are not run. -/
def run (l : Language ι W V) (tokens : List String) (m : Machine W) : Except Error V × Machine W :=
  match (l.parse tokens).toExcept with
  | .ok p => p.job.run m
  | .error error => (.error error, m)

/-- The published grammar: the root up to the end of the input, and everything it refers to. -/
def grammar (l : Language ι W V) : Grammar :=
  l.root.grammar l.vocabulary
    (Grammar.empty.insert l.tag [[.type (l.root.tag l.vocabulary.tag), .endOfInput]])

end Language

end Parlance
