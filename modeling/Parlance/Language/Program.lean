import Parlance.Language.Vocabulary
import Parlance.Trace

/-
  Parsed programs. A program tree says which rule read which tokens; it has a trace, and it is a
  job to be done. Arguments are evaluated from left to right, each before the next is started.
-/

namespace Parlance

/-- What was read, and by what. -/
inductive Program (ι W V : Type) where
  /-- A word read by a primitive. -/
  | literal (tag : String) (token : Token) (value : V)
  /-- A keyword of the type `tag`, its rule, and one program per argument. -/
  | call (tag : String) (keyword : Token) (rule : Rule ι W V) (args : List (Program ι W V))
  /-- The items of a repetition, and the exit word if one was read. -/
  | list (tag : String) (r : Repetition V) (items : List (Program ι W V)) (exit : Option Token)

namespace Program

variable {ι W V : Type}

mutual

/-- The tokens of the program under their tags. The fallback of a type adds no node. -/
def trace : Program ι W V → Trace
  | literal tag token _ => .leaf tag token
  | call tag keyword _ args => (Trace.branch tag (traceAll args)).prepend tag (.leaf "fn" keyword)
  | list tag _ items exit =>
    .branch tag (traceAll items ++ exit.toList.map (Trace.leaf (tag ++ ".exit")))
termination_by structural p => p

/-- The traces of a list of programs. -/
def traceAll : List (Program ι W V) → List Trace
  | [] => []
  | p :: rest => p.trace :: traceAll rest
termination_by structural ps => ps

end

mutual

/-- What the program does when it is run, given what it means to call a rule through a keyword.
Arguments come before the call, and a repetition does its items as its mode says. -/
def jobWith {W' : Type} (invoke : Token → Rule ι W V → List V → Job W' V V) :
    Program ι W V → Job W' V V
  | literal _ _ value => .pure value
  | call _ keyword rule args => (Job.arguments (jobAllWith invoke args)).bind (invoke keyword rule)
  | list _ r items _ =>
    match r.mode with
    | .sequential => (Job.sequence (jobAllWith invoke items)).map r.gather
    | .joined => (Job.together (jobAllWith invoke items)).map r.gather
termination_by structural p => p

/-- What each of a list of programs does. -/
def jobAllWith {W' : Type} (invoke : Token → Rule ι W V → List V → Job W' V V) :
    List (Program ι W V) → List (Job W' V V)
  | [] => []
  | p :: rest => p.jobWith invoke :: jobAllWith invoke rest
termination_by structural ps => ps

end

/-- What the program does when it is run: a call is handled by its rule. -/
def job (p : Program ι W V) : Job W V V := p.jobWith fun _ rule => rule.handler

end Program

/-- A call of a rule by itself, with programs for arguments. -/
def Rule.callJob {ι W V : Type} (rule : Rule ι W V) (args : List (Program ι W V)) : Job W V V :=
  (Job.arguments (args.map Program.job)).bind rule.handler

end Parlance
