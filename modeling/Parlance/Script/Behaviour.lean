import Parlance.Language.Literal
import Parlance.Language.Recorded
import Parlance.Script.Value

/-
  Scripted rules: recorded rules whose results and naps are chosen from a few behaviours, over
  types that are named by strings.
-/

namespace Parlance.Script

/-- The log of a scripted language. -/
abbrev Log := List (Recorded.Event Value)

/-- A rule of a scripted language. -/
abbrev ScriptRule := Recorded.Rule String Value

/-- How a rule computes its result. -/
inductive Behaviour where
  /-- The call itself as a value. -/
  | call
  /-- The first argument, or the empty list if there is none. -/
  | first
  /-- The list of the arguments. -/
  | list
  /-- The length of the first argument if it is a list, else the number of arguments. -/
  | count
  /-- Always fails. -/
  | fail
  /-- Fails if the last argument is false or negative; else the call itself. -/
  | check
  deriving DecidableEq, Repr

/-- The result of a call. -/
def Behaviour.result (keyword : String) (args : List Value) : Behaviour → Except Error Value
  | call => .ok (.call keyword args)
  | first => .ok (args.headD (.list []))
  | list => .ok (.list args)
  | count =>
    match args with
    | .list items :: _ => .ok (.int items.length)
    | _ => .ok (.int args.length)
  | fail => .error (.handler ((Value.call keyword args).text ++ " failed"))
  | check =>
    match args.getLast? with
    | some (.bool false) => .error (.handler (keyword ++ " refused"))
    | some (.int n) =>
      if n < 0 then .error (.handler (keyword ++ " got " ++ intText n))
      else .ok (.call keyword args)
    | _ => .ok (.call keyword args)

/-- A nap as long as the first argument says: its absolute value if it is a whole number, else no
time. -/
def argumentDelay : List Value → Nat
  | .int n :: _ => n.natAbs
  | _ => 0

/-- A rule with the given behaviour. -/
def scriptRule (keyword : String) (args : List (Expr String Value)) (behaviour : Behaviour)
    (binding : Recorded.Binding Value) : ScriptRule :=
  ⟨keyword, args, fun values => behaviour.result keyword values, binding⟩

/-- A log entry as a line. -/
def eventText : Recorded.Event Value → String
  | .called keyword args => "call " ++ (Value.call keyword args).text
  | .finished keyword time => "done " ++ keyword ++ " @" ++ time.repr
  | .failed keyword time => "fail " ++ keyword ++ " @" ++ time.repr

/-! ## Expressions over scripted values -/

/-- A repetition, whose value is the list of the values of its items. -/
def repetition (mode : Mode) (exit : Option String) (child : Expr String Value) :
    Expr String Value :=
  .rep ⟨mode, exit, Value.list⟩ child

/-- A primitive that takes exactly the given words, as texts. -/
def wordPrimitive (tag : String) (accepted : List String) (reason : String) : Primitive Value :=
  ⟨tag, fun word => if accepted.contains word then .ok (.string word) else .error reason⟩

/-- A standard primitive by its tag. -/
def standard? (tag : String) : Option (Primitive Value) :=
  [Literal.int.map Value.int, Literal.number.map Value.number, Literal.string.map Value.string,
    Literal.bool.map Value.bool].find? (·.tag == tag)

end Parlance.Script
