/-
  The ways in which reading, defining or running a program can fail, and how a failure is
  reported: its name, its one-line message, the token it points at, and the stable code and
  hint under which a diagnostic is filed.
-/

namespace Parlance

/-- A failure, by cause. Positions are indices into the token list of the program. -/
inductive Error where
  /-- The input ended where something tagged `expected` had to start. -/
  | exhausted (expected : String) (position : Nat)
  /-- A primitive refused the token and said why. -/
  | unreadable (token : String) (position : Nat) (expected reason : String)
  /-- The token is neither a keyword of the type nor the start of its default. -/
  | unexpected (token : String) (position : Nat) (expected : String)
  /-- The program was complete before this token. -/
  | trailing (token : String) (position : Nat)
  /-- A rule was asked to read a program that starts with another word. -/
  | mismatch (expected found : String) (position : Nat)
  /-- A type was used before it had rules. -/
  | undefinedType (tag : String)
  /-- A type was given rules twice. -/
  | alreadyDefined (tag : String)
  /-- A handler refused its arguments. -/
  | handler (message : String)
  /-- The file system, or a stream, refused. -/
  | io (message : String)
  deriving DecidableEq, Repr

/-- The phase that a failure belongs to. -/
inductive Phase where
  | parse
  | definition
  | execution
  deriving DecidableEq, Repr

namespace Error

/-- The name under which a failure is announced. -/
def name : Error → String
  | exhausted .. => "ParserExhausted"
  | unreadable .. => "ConversionFailure"
  | unexpected .. => "DispatchFailure"
  | trailing .. => "TrailingInput"
  | mismatch .. => "KeywordMismatch"
  | undefinedType _ => "UndefinedType"
  | alreadyDefined _ => "AlreadyDefined"
  | handler _ => "HandlerError"
  | io _ => "IoError"

/-- The one-line text of a failure. -/
def message : Error → String
  | exhausted expected position =>
    "Expected <" ++ expected ++ "> but the input ended at index " ++ position.repr ++ "."
  | unreadable token position expected reason =>
    "Could not read \"" ++ token ++ "\" at index " ++ position.repr ++ " as <" ++ expected ++
      ">: " ++ reason ++ "."
  | unexpected token position expected =>
    "Unexpected token \"" ++ token ++ "\" at index " ++ position.repr ++ " for type <" ++
      expected ++ ">."
  | trailing token position =>
    "Unexpected token \"" ++ token ++ "\" at index " ++ position.repr ++
      ": input remains after the program."
  | mismatch expected found position =>
    "Expected keyword \"" ++ expected ++ "\" but got \"" ++ found ++ "\" at index " ++
      position.repr ++ "."
  | undefinedType tag => "Type <" ++ tag ++ "> was used before it was defined."
  | alreadyDefined tag => "Type <" ++ tag ++ "> is already defined."
  | handler message => message
  | io message => message

/-- Using an undefined type is a mistake in the language, not in the input. -/
def phase : Error → Phase
  | exhausted .. | unreadable .. | unexpected .. | trailing .. | mismatch .. => .parse
  | undefinedType _ | alreadyDefined _ => .definition
  | handler _ | io _ => .execution

/-- The index of the token that the failure points at, if it points at one. -/
def position? : Error → Option Nat
  | exhausted _ position | unreadable _ position _ _ | unexpected _ position _
  | trailing _ position | mismatch _ _ position => some position
  | undefinedType _ | alreadyDefined _ | handler _ | io _ => none

/-- `<name>: <message>`. -/
def summary (e : Error) : String := e.name ++ ": " ++ e.message

/-- The stable code of a diagnostic. -/
def code : Error → String
  | exhausted .. => "krikata::parse::exhausted"
  | unreadable .. => "krikata::parse::conversion"
  | unexpected .. => "krikata::parse::dispatch"
  | trailing .. => "krikata::parse::trailing"
  | mismatch .. => "krikata::parse::keyword"
  | undefinedType _ => "krikata::define::undefined"
  | alreadyDefined _ => "krikata::define::duplicate"
  | handler _ => "krikata::exec::handler"
  | io _ => "krikata::exec::io"

/-- What a diagnostic suggests to do, where there is something to suggest. -/
def hint? : Error → Option String
  | exhausted .. => some "the program stops before every argument was supplied"
  | unexpected .. => some "run with --grammar to list the accepted keywords"
  | _ => none

end Error

/-- The name under which a phase is reported. -/
def Phase.name : Phase → String
  | parse => "Parse"
  | definition => "Definition"
  | execution => "Execution"

end Parlance
