import Parlance.Language
import Parlance.Language.Literal

/-
  A calculator in which operators stand before their operands. Its types are numbers, truth
  values and arrays of numbers:

    add 1 mul 2 3            7
    sum 1 2 3 -              6
    test eq 1 1 10 20        10
    sum double range 4       12
-/

namespace Parlance.Demo.Calc

/-- The types of the calculator. -/
inductive Name where
  | value
  | boolean
  | arr
  deriving DecidableEq, Repr

/-- What an expression of the calculator stands for. -/
inductive Value where
  | number (x : Float)
  | truth (b : Bool)
  | array (xs : List Float)

/-- A source of random numbers. -/
structure Generator where
  state : UInt64 := 0

/-- A random number that is at least 0 and less than 1. -/
def Generator.draw (g : Generator) : Float × Generator :=
  let state := g.state * 6364136223846793005 + 1442695040888963407
  ((state >>> 11).toFloat / 9007199254740992.0, ⟨state⟩)

/-- What the rules of the calculator do. -/
abbrev Action := Job Generator Value Value

/-- The number at a place; the parser sees to it that there is one. -/
def numberAt (args : List Value) (i : Nat) : Float :=
  match args[i]? with
  | some (.number x) => x
  | _ => 0

/-- The truth value at a place. -/
def truthAt (args : List Value) (i : Nat) : Bool :=
  match args[i]? with
  | some (.truth b) => b
  | _ => false

/-- The array at a place. -/
def arrayAt (args : List Value) (i : Nat) : List Float :=
  match args[i]? with
  | some (.array xs) => xs
  | _ => []

/-- The array of the numbers among the values. -/
def gather (values : List Value) : Value :=
  .array (values.filterMap fun v => match v with | .number x => some x | _ => none)

/-- A number of things: whole and not negative. -/
def count (x : Float) : Except Error Nat :=
  match (Decimal.Binary64.ofFloat? x).bind Decimal.Binary64.toInt? with
  | some (.ofNat n) => .ok n
  | _ =>
    .error (.handler ("expected a non-negative whole number, got " ++ Decimal.floatText x))

/-- The sum from left to right. It starts from negative zero, which is the sum of no numbers. -/
def sum (xs : List Float) : Float := xs.foldl (· + ·) (-0.0)

/-- The quotient of two numbers, unless the divisor is zero. -/
def divide (x y : Float) : Except Error Value :=
  if y == 0 then .error (.handler "division by zero") else .ok (.number (x / y))

/-- The numbers from 0 up to but not including the given one. -/
def range (x : Float) : Except Error Value :=
  (count x).map fun n => .array ((List.range n).map Float.ofNat)

/-- The second number as often as the first one says. -/
def replicate (x y : Float) : Except Error Value :=
  (count x).map fun n => .array (List.replicate n y)

/-- A rule with two numbers. -/
def binary (keyword : String) (f : Float → Float → Action) : Rule Name Generator Value :=
  ⟨keyword, [.type .value, .type .value], fun args => f (numberAt args 0) (numberAt args 1)⟩

/-- The rules for numbers. -/
def valueRules : List (Rule Name Generator Value) :=
  [binary "add" fun x y => .pure (.number (x + y)),
   binary "sub" fun x y => .pure (.number (x - y)),
   binary "mul" fun x y => .pure (.number (x * y)),
   binary "div" fun x y => .done (divide x y),
   ⟨"test", [.type .boolean, .type .value, .type .value], fun args =>
      .pure (.number (if truthAt args 0 then numberAt args 1 else numberAt args 2))⟩,
   ⟨"sum", [.type .arr], fun args => .pure (.number (sum (arrayAt args 0)))⟩,
   ⟨"pi", [], fun _ => .pure (.number 3.14)⟩,
   ⟨"rand", [], fun _ =>
      Job.perform fun g => let (x, g) := g.draw; (.ok (.number x), g)⟩]

/-- The rules for truth values. -/
def booleanRules : List (Rule Name Generator Value) :=
  [binary "eq" fun x y => .pure (.truth (x == y))]

/-- The rules for arrays. -/
def arrRules : List (Rule Name Generator Value) :=
  [binary "repeat" fun x y => .done (replicate x y),
   ⟨"range", [.type .value], fun args => .done (range (numberAt args 0))⟩,
   ⟨"double", [.type .arr], fun args =>
      .pure (.array ((arrayAt args 0).map fun x => x * 2))⟩]

/-- A list of numbers that ends with `-` or with the input. -/
def numbers : Expr Name Value := .rep ⟨.sequential, some "-", gather⟩ (.type .value)

/-- The types of the calculator with their rules. -/
def vocabulary : Vocabulary Name Generator Value where
  tag
    | .value => "value"
    | .boolean => "boolean"
    | .arr => "arr"
  table
    | .value =>
      some (.ofRules valueRules
        (some (.prim (Literal.number.map fun x => .number x.toFloat))))
    | .boolean => some (.ofRules booleanRules (some (.prim (Literal.bool.map .truth))))
    | .arr => some (.ofRules arrRules (some numbers))
  names := [.value, .boolean, .arr]
  mem_names := by intro i _; cases i <;> simp

/-- The calculator. -/
def language : Language Name Generator Value := ⟨"calc", .type .value, vocabulary⟩

/-- The language of conditions. -/
def conditions : Language Name Generator Value := ⟨"cond", .type .boolean, vocabulary⟩

/-- The language of arrays. -/
def arrays : Language Name Generator Value := ⟨"arr", .type .arr, vocabulary⟩

/-- The text of a value. -/
def Value.text : Value → String
  | number x => Decimal.floatText x
  | truth b => if b then "true" else "false"
  | array xs => "[" ++ Text.joinWith "," (xs.map Decimal.floatText) ++ "]"

end Parlance.Demo.Calc
