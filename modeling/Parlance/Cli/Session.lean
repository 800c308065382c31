import Parlance.Cli.Help
import Parlance.Cli.Options
import Parlance.Language
import Parlance.Grammar.Layout
import Parlance.Text.Utf8

/-
  What the command line prints. A program is echoed, traced if that is asked for, and run; or the
  grammar is printed; or programs are read line by line. Results go to the standard output and
  failures to the standard error; a failure of a line read does not end the session.
-/

namespace Parlance.Cli

variable {ι W V : Type}

/-- A language with the name of its command and the text of its values. -/
structure App (ι W V : Type) where
  command : String
  language : Language ι W V
  render : V → String

/-- What one evaluated program gives. -/
structure Evaluation where
  tokens : String
  typed : String
  value : String
  deriving DecidableEq, Repr

/-- How a session ends. -/
inductive Ending where
  | success
  /-- The failure is printed on one line, or as a report that points at the program. -/
  | failure (error : Error) (report : Bool)
  deriving DecidableEq, Repr

/-- What was printed, and how it ended. -/
structure Transcript where
  stdout : String := ""
  stderr : String := ""
  ending : Ending := .success
  deriving DecidableEq, Repr

namespace App

/-- Runs the job of a program and gives the text of its value. -/
def execute (app : App ι W V) (p : Program ι W V) (w : W) : Except Error String × W :=
  let (result, m) := p.job.run { world := w }
  (result.map app.render, m.world)

/-- Reads and runs the words of a line. -/
def evaluate (app : App ι W V) (line : String) (w : W) : Except Error Evaluation × W :=
  match (app.language.parse (Text.words line)).toExcept with
  | .error error => (.error error, w)
  | .ok p =>
    let trace := app.language.trace p
    let (value, w) := app.execute p w
    (value.map fun value => ⟨trace.plain, trace.typed, value⟩, w)

/-! ## One program -/

/-- A trace in the format asked for. -/
def traceText (trace : Trace) : TraceFormat → String
  | .text => trace.plain ++ "\n" ++ trace.typed ++ "\n"
  | .json => trace.toJson.pretty ++ "\n"

/-- Prints the grammar, or echoes the program and runs it. Gives what was printed before a
failure, too. -/
def runProgram (app : App ι W V) (o : Options) (w : W) : (String × Option Error) × W :=
  if o.grammar then ((app.language.grammar.format, none), w)
  else
    let echo := "> " ++ Text.joinWith " " o.program ++ "\n"
    match (app.language.parse o.program).toExcept with
    | .error error => ((echo, some error), w)
    | .ok p =>
      let shown :=
        if o.trace then echo ++ traceText (app.language.trace p) o.traceFormat else echo
      match app.execute p w with
      | (.ok value, w) => ((shown ++ value ++ "\n", none), w)
      | (.error error, w) => ((shown, some error), w)

/-! ## Line by line -/

/-- What a line gives: what is printed, and whether the session goes on. -/
structure Response where
  stdout : String := ""
  stderr : String := ""
  quit : Bool := false
  deriving DecidableEq, Repr

/-- The greeting of a session. -/
def greeting (app : App ι W V) : String :=
  app.language.tag ++ " REPL\nType :help for help, :quit to exit\n"

/-- What stands before every line. -/
def prompt : String := "> "

/-- The text of `:help`. -/
def commandHelp : String :=
  "  :help, :h      Show this help\n" ++
    "  :grammar, :g   Print the grammar\n" ++
    "  :quit, :q      Exit the REPL\n" ++
    "Anything else is run as a program.\n"

/-- A command of the session. -/
def obey (app : App ι W V) (line : String) : Response :=
  if line = ":help" ∨ line = ":h" then { stdout := commandHelp }
  else if line = ":grammar" ∨ line = ":g" then { stdout := app.language.grammar.format }
  else if line = ":quit" ∨ line = ":q" then { quit := true }
  else { stdout := "Unknown command: " ++ line ++ ". Type :help for available commands.\n" }

/-- Runs a line. Blanks at its ends do not count, an empty line does nothing, and a line that
starts with a colon is a command. -/
def respond (app : App ι W V) (line : String) (w : W) : Response × W :=
  let line := Text.trim line
  if line.isEmpty then ({}, w)
  else if line.toList.head? = some ':' then (app.obey line, w)
  else
    match app.evaluate line w with
    | (.ok e, w) => ({ stdout := e.tokens ++ "\n" ++ e.typed ++ "\n" ++ e.value ++ "\n" }, w)
    | (.error error, w) => ({ stderr := error.summary ++ "\n" }, w)

/-- A line without the carriage return that belongs to its line break. -/
def dropReturn (line : List UInt8) : List UInt8 :=
  if line.getLast? = some 13 then line.dropLast else line

/-- The lines of the input without their line breaks; what follows the last break is a line if
there is anything. -/
def inputLines (input : List UInt8) : List (List UInt8) :=
  let pieces := Text.pieces 10 input
  pieces.dropLast.map dropReturn ++ (pieces.getLast?.toList.filter fun piece => !piece.isEmpty)

/-- The text of a line, or the failure of a line that is not UTF-8. -/
def decodeLine (line : List UInt8) : Except Error String :=
  match String.fromUTF8? ⟨line.toArray⟩ with
  | some text => .ok text
  | none => .error (.io ((Text.Utf8Fault.find? line).elim "" Text.Utf8Fault.message))

/-- Goes through the lines, a prompt before each. At the end of the input the open line is
ended. -/
def converse (app : App ι W V) : List (List UInt8) → W → (Transcript × W)
  | [], w => ({ stdout := prompt ++ "\n" }, w)
  | line :: rest, w =>
    match decodeLine line with
    | .error error => ({ stdout := prompt, ending := .failure error false }, w)
    | .ok text =>
      let (r, w) := app.respond text w
      if r.quit then ({ stdout := prompt ++ r.stdout, stderr := r.stderr }, w)
      else
        let (t, w) := app.converse rest w
        ({ t with
            stdout := prompt ++ r.stdout ++ t.stdout
            stderr := r.stderr ++ t.stderr }, w)

/-! ## The whole -/

/-- Runs what the options ask for. -/
def session (app : App ι W V) (o : Options) (input : List UInt8) (w : W) : Transcript × W :=
  let (t, w) :=
    if o.repl then
      let (t, w) := app.converse (inputLines input) w
      ({ t with stdout := app.greeting ++ t.stdout }, w)
    else
      let ((stdout, failure), w) := app.runProgram o w
      let ending := match failure with
        | none => Ending.success
        | some error => .failure error false
      ({ stdout := stdout, ending := ending }, w)
  match t.ending with
  | .success => (t, w)
  | .failure error _ =>
    if o.diagnostics then ({ t with ending := .failure error true }, w)
    else ({ t with stderr := t.stderr ++ error.summary ++ "\n" }, w)

end App

end Parlance.Cli
