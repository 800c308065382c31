import Parlance.Decimal.Shortest
import Parlance.Language.Expr

/-
  The standard primitives: whole numbers of 64 bits, floating-point numbers, texts and truth
  values.
-/

namespace Parlance

namespace Literal

/-- The least whole number of 64 bits. -/
def minInt : Int := -Int.pow 2 63

/-- The largest whole number of 64 bits. -/
def maxInt : Int := Int.pow 2 63 - 1

/-- A finite number: the numeral rounded to 53 bits. -/
def readNumber (word : String) : Except String Decimal.Binary64 :=
  match (Decimal.Numeral.read? word).bind Decimal.Binary64.ofNumeral? with
  | some x => .ok x
  | none => .error "invalid number"

/-- A whole number that is written with digits alone and fits. -/
def readPlainInt? (word : String) : Option Int :=
  (Decimal.readInteger? word).filter fun n => minInt ≤ n ∧ n ≤ maxInt

/-- A whole number from a number of 53 bits: one past the largest is taken for the largest. -/
def intOfNumber? (x : Decimal.Binary64) : Option Int :=
  (x.toInt?.filter fun n => minInt ≤ n ∧ n ≤ maxInt + 1).map fun n => min n maxInt

/-- A whole number. What is not written as one, or does not fit, is read as a number and taken if
that number is whole and in range. -/
def readInt (word : String) : Except String Int :=
  match readPlainInt? word with
  | some n => .ok n
  | none =>
    match (readNumber word).toOption.bind intOfNumber? with
    | some n => .ok n
    | none => .error "expected integer"

/-- `true` or `false`, and nothing else. -/
def readBool (word : String) : Except String Bool :=
  if word = "true" then .ok true
  else if word = "false" then .ok false
  else .error "invalid boolean"

/-- The primitive of whole numbers. -/
def int : Primitive Int := ⟨"int", readInt⟩

/-- The primitive of floating-point numbers. -/
def number : Primitive Decimal.Binary64 := ⟨"number", readNumber⟩

/-- The primitive of texts, which takes every word as it is. -/
def string : Primitive String := ⟨"string", .ok⟩

/-- The primitive of truth values. -/
def bool : Primitive Bool := ⟨"bool", readBool⟩

end Literal

end Parlance
