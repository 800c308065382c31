import Parlance.Decimal.Numeral

/-
  Finite binary floating-point numbers of 53 bits, and the rounding of a decimal numeral to the
  nearest of them. All arithmetic is exact, on natural numbers. A half goes to the neighbour with
  an even mantissa, and a numeral that rounds past the largest number has no value.
-/

namespace Parlance.Decimal

/-- `± mantissa · 2 ^ exponent`. As `ofNumeral?` and `ofFloat?` give it, the mantissa is below
`2 ^ 53`, the exponent is at least `-1074`, and it is exactly that where the mantissa is below
`2 ^ 52`. -/
structure Binary64 where
  negative : Bool
  mantissa : Nat
  exponent : Int
  deriving DecidableEq, Repr

/-- The quotient rounded to the nearest whole number, a half to the even one. -/
def roundDiv (num den : Nat) : Nat :=
  let q := num / den
  let r := num % den
  if 2 * r > den ∨ (2 * r = den ∧ q % 2 = 1) then q + 1 else q

/-- Both terms of a fraction scaled so that it is divided by `2 ^ e`. -/
def scaleBy (e : Int) (num den : Nat) : Nat × Nat :=
  if 0 ≤ e then (num, den * Nat.pow 2 e.toNat) else (num * Nat.pow 2 (-e).toNat, den)

namespace Binary64

/-- The least exponent. -/
def minExponent : Int := -1074

/-- The largest exponent. -/
def maxExponent : Int := 971

/-- The exponent at which the fraction has 53 bits in front of the point, or the least one. -/
def exponentFor (num den : Nat) : Int :=
  let e := max ((num.log2 : Int) - den.log2 - 53) minExponent
  let (n, d) := scaleBy e num den
  if n / d ≥ Nat.pow 2 53 then e + 1 else e

/-- The number nearest to a positive fraction, unless it is too large. -/
def ofFraction? (negative : Bool) (num den : Nat) : Option Binary64 :=
  let e := exponentFor num den
  let (n, d) := scaleBy e num den
  let m := roundDiv n d
  let (m, e) := if m = Nat.pow 2 53 then (Nat.pow 2 52, e + 1) else (m, e)
  if e > maxExponent then none else some ⟨negative, m, e⟩

/-- The number nearest to a numeral, unless it is too large. A numeral of more than 310 digits in
front of the point is too large, and one with more than 330 zeros behind it rounds to zero, so
that no power of ten past these limits is computed. -/
def ofNumeral? (x : Numeral) : Option Binary64 :=
  if x.coefficient = 0 then some ⟨x.negative, 0, minExponent⟩
  else
    let digits : Int := (Nat.toDigits 10 x.coefficient).length
    if digits + x.exponent > 310 then none
    else if digits + x.exponent < -330 then some ⟨x.negative, 0, minExponent⟩
    else if 0 ≤ x.exponent then
      ofFraction? x.negative (x.coefficient * Nat.pow 10 x.exponent.toNat) 1
    else ofFraction? x.negative x.coefficient (Nat.pow 10 (-x.exponent).toNat)

/-- The number as a whole number, if it is one. -/
def toInt? (x : Binary64) : Option Int :=
  let signed (n : Nat) : Int := if x.negative then -(n : Int) else n
  if 0 ≤ x.exponent then some (signed (x.mantissa * Nat.pow 2 x.exponent.toNat))
  else if x.mantissa % Nat.pow 2 (-x.exponent).toNat = 0 then
    some (signed (x.mantissa / Nat.pow 2 (-x.exponent).toNat))
  else none

/-- The encoding in 64 bits: sign, biased exponent, and mantissa without its leading bit. -/
def toBits (x : Binary64) : UInt64 :=
  let magnitude :=
    if x.mantissa < Nat.pow 2 52 then x.mantissa
    else (x.exponent + 1075).toNat * Nat.pow 2 52 + (x.mantissa - Nat.pow 2 52)
  (if x.negative then Nat.pow 2 63 + magnitude else magnitude).toUInt64

/-- The number as a machine number. -/
def toFloat (x : Binary64) : Float := Float.ofBits x.toBits

/-- The number that 64 bits encode, unless they encode an infinity or no number. -/
def ofBits? (bits : UInt64) : Option Binary64 :=
  let n := bits.toNat
  let negative := decide (Nat.pow 2 63 ≤ n)
  let biased : Nat := n / Nat.pow 2 52 % Nat.pow 2 11
  let fraction := n % Nat.pow 2 52
  if biased = 2047 then none
  else if biased = 0 then some ⟨negative, fraction, minExponent⟩
  else some ⟨negative, Nat.pow 2 52 + fraction, (biased : Int) - 1075⟩

/-- The machine number, unless it is an infinity or no number. -/
def ofFloat? (x : Float) : Option Binary64 := ofBits? x.toBits

end Binary64

end Parlance.Decimal
