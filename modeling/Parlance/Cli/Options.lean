/-
  The command line. Options are recognised up to the first word that is not an option; that word
  and everything after it is the program, and a first `--` ends the options and is dropped.

  An option is given at most once. The value of `--trace-format` may stand behind `=` or be the
  next word; in the latter case it is looked at when the next option, the program or the end of
  the line is reached.
-/

namespace Parlance.Cli

/-- How a trace is printed. -/
inductive TraceFormat where
  | text
  | json
  deriving DecidableEq, Repr

/-- The options that take no value. -/
inductive Flag where
  | grammar
  | trace
  | diagnostics
  | repl
  deriving DecidableEq, Repr

/-- What the command line asks for. -/
structure Options where
  grammar : Bool := false
  trace : Bool := false
  traceFormat : TraceFormat := .text
  diagnostics : Bool := false
  repl : Bool := false
  program : List String := []
  deriving DecidableEq, Repr

/-- Why nothing is run: help or the version was asked for, or the options are wrong. -/
inductive Refusal where
  | help (long : Bool)
  | version
  /-- The value of an option is missing or not one of the possible ones. -/
  | invalidValue
  /-- An option is given twice. -/
  | conflict
  /-- A value is given to an option that takes none. -/
  | unneededValue
  deriving DecidableEq, Repr

/-- The text of a refusal that is an error. -/
def Refusal.message : Refusal → String
  | help _ | version => ""
  | invalidValue => "a value is required for '--trace-format': text or json"
  | conflict => "an option cannot be used multiple times"
  | unneededValue => "a value was given to an option that takes none"

/-- What a word of the command line is. -/
inductive Word where
  | flag (f : Flag)
  | flagWithValue
  | help (long : Bool)
  | version
  | traceFormat (value : Option String)
  | plain
  deriving DecidableEq, Repr

/-- The possible values of `--trace-format`. -/
def TraceFormat.ofText? : String → Option TraceFormat
  | "text" => some .text
  | "json" => some .json
  | _ => none

/-- An option by its long name and the value behind `=`. -/
def Word.ofLong (name : String) (value : Option String) : Word :=
  let flag (w : Word) : Word := if value.isSome then .flagWithValue else w
  match name with
  | "grammar" => flag (.flag .grammar)
  | "trace" => flag (.flag .trace)
  | "diagnostics" => flag (.flag .diagnostics)
  | "repl" => flag (.flag .repl)
  | "help" => flag (.help true)
  | "version" => flag .version
  | "trace-format" => .traceFormat value
  | _ => .plain

/-- What a word is where options are recognised. A group of short options counts only if every
letter of it is an option; the first letter decides. -/
def Word.ofString (word : String) : Word :=
  match word.toList with
  | '-' :: '-' :: rest =>
    let name := rest.takeWhile (· ≠ '=')
    let value :=
      match rest.dropWhile (· ≠ '=') with
      | [] => none
      | _ :: value => some (String.ofList value)
    .ofLong (String.ofList name) value
  | '-' :: c :: rest =>
    if (c :: rest).all fun c => c = 'h' ∨ c = 'V' then
      if c = 'h' then .help false else .version
    else .plain
  | _ => .plain

/-- The options so far, and a value of `--trace-format` that was not looked at yet. -/
structure Scan where
  options : Options := {}
  format : Option TraceFormat := none
  pending : Option String := none
  deriving DecidableEq, Repr

namespace Scan

/-- Looks at the value of `--trace-format`. -/
def setFormat (s : Scan) (value : String) : Except Refusal Scan :=
  if s.format.isSome then .error .conflict
  else
    match TraceFormat.ofText? value with
    | some f => .ok { s with format := some f, pending := none }
    | none => .error .invalidValue

/-- Looks at the value that was not looked at yet. -/
def settle (s : Scan) : Except Refusal Scan :=
  match s.pending with
  | none => .ok s
  | some value => s.setFormat value

/-- Sets a flag. -/
def raise (s : Scan) (f : Flag) : Except Refusal Scan :=
  let o := s.options
  let set (given : Bool) (o : Options) : Except Refusal Scan :=
    if given then .error .conflict else .ok { s with options := o }
  match f with
  | .grammar => set o.grammar { o with grammar := true }
  | .trace => set o.trace { o with trace := true }
  | .diagnostics => set o.diagnostics { o with diagnostics := true }
  | .repl => set o.repl { o with repl := true }

/-- Ends the options; the rest is the program. -/
def finish (s : Scan) (program : List String) : Except Refusal Options := do
  let s ← s.settle
  return { s.options with traceFormat := s.format.getD .text, program := program }

/-- Goes through the words of the command line. -/
def run (s : Scan) : List String → Except Refusal Options
  | [] => s.finish []
  | word :: rest =>
    if word = "--" then s.finish rest
    else
      match Word.ofString word with
      | .plain => s.finish (word :: rest)
      | .flagWithValue => .error .unneededValue
      | .flag f => do
        let s ← s.settle
        let s ← s.raise f
        s.run rest
      | .help long => do
        let _ ← s.settle
        .error (.help long)
      | .version => do
        let _ ← s.settle
        .error .version
      | .traceFormat (some value) => do
        let s ← s.settle
        let s ← s.setFormat value
        s.run rest
      | .traceFormat none => do
        let s ← s.settle
        match rest with
        | [] => .error .invalidValue
        | value :: rest =>
          match if value = "--" then .version else Word.ofString value with
          | .plain => run { s with pending := some value } rest
          | .flagWithValue => .error .unneededValue
          | _ => .error .invalidValue

end Scan

/-- What a command line asks for. -/
def Options.parse (args : List String) : Except Refusal Options := ({} : Scan).run args

end Parlance.Cli
