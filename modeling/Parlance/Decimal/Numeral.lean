/-
  Decimal numerals: an optional sign, digits with an optional point among or around them, and an
  optional exponent. A numeral denotes the rational `± coefficient · 10 ^ exponent` exactly;
  how it is rounded is not decided here.
-/

namespace Parlance.Decimal

/-- The exact number that a numeral denotes: `± coefficient · 10 ^ exponent`. -/
structure Numeral where
  negative : Bool
  coefficient : Nat
  exponent : Int
  deriving DecidableEq, Repr

/-- The ten digits, and no others. -/
def isDigit (c : Char) : Bool := decide (48 ≤ c.toNat) && decide (c.toNat ≤ 57)

/-- The number that a list of digits denotes in base ten. -/
def digitsValue (ds : List Char) : Nat :=
  ds.foldl (fun n c => 10 * n + (c.toNat - 48)) 0

/-- A leading sign, true for minus, and the rest; without a sign the number is positive. -/
def takeSign : List Char → Bool × List Char
  | '-' :: rest => (true, rest)
  | '+' :: rest => (false, rest)
  | cs => (false, cs)

/-- Digits and nothing else, at least one. -/
def readDigits? (cs : List Char) : Option Nat :=
  if !cs.isEmpty && cs.all isDigit then some (digitsValue cs) else none

/-- A whole number: an optional sign and digits. -/
def readInteger? (s : String) : Option Int :=
  let (negative, rest) := takeSign s.toList
  (readDigits? rest).map fun n => if negative then -(n : Int) else n

/-- What follows the digits: nothing, or `e` or `E`, an optional sign and digits. -/
def readExponent? : List Char → Option Int
  | [] => some 0
  | c :: rest =>
    if c = 'e' ∨ c = 'E' then
      let (negative, digits) := takeSign rest
      (readDigits? digits).map fun n => if negative then -(n : Int) else n
    else none

/-- The digits before and after the point, and what follows them. -/
def takeFraction (cs : List Char) : List Char × List Char × List Char :=
  let whole := cs.takeWhile isDigit
  match cs.dropWhile isDigit with
  | '.' :: rest => (whole, rest.takeWhile isDigit, rest.dropWhile isDigit)
  | rest => (whole, [], rest)

/-- Reads a numeral. There is at least one digit before the exponent. -/
def Numeral.read? (s : String) : Option Numeral :=
  let (negative, rest) := takeSign s.toList
  let (whole, fraction, rest) := takeFraction rest
  if whole.isEmpty && fraction.isEmpty then none
  else
    (readExponent? rest).map fun e =>
      ⟨negative, digitsValue (whole ++ fraction), e - fraction.length⟩

end Parlance.Decimal
