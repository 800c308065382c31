import Parlance.Decimal.Binary64

/-
  The text of a floating-point number: the fewest decimal digits that read back to it, of these
  the nearest to it, and of two equally near the larger. The digits are written positionally,
  however many zeros that takes, and a whole number has no point.
-/

namespace Parlance.Decimal

/-- `digits · 10 ^ exponent`. -/
structure Scaled where
  digits : Nat
  exponent : Int
  deriving DecidableEq, Repr

/-- The number of decimal digits of a natural number. -/
def digitCount (n : Nat) : Nat := (Nat.toDigits 10 n).length

/-- The `k` with `10 ^ (k - 1) ≤ num / den < 10 ^ k`, for a positive fraction. -/
def magnitude (num den : Nat) : Int :=
  if den ≤ num then digitCount (num / den)
  else
    let n := digitCount (den / num)
    if den = num * Nat.pow 10 (n - 1) then 2 - (n : Int) else 1 - (n : Int)

/-- A fraction, and the interval around it of the numbers that round to it. All three bounds are
over the denominator `den`; `closed` says whether the ends belong to the interval. -/
structure Neighbourhood where
  low : Nat
  centre : Nat
  high : Nat
  den : Nat
  closed : Bool
  deriving Repr

namespace Neighbourhood

/-- The interval of a positive number. The gap below a power of two is half the gap above. -/
def ofBinary (x : Binary64) : Neighbourhood :=
  let m := x.mantissa
  let below := if m = Nat.pow 2 52 ∧ x.exponent > Binary64.minExponent then 1 else 2
  let (unit, den) := scaleBy (2 - x.exponent) 1 1
  ⟨(4 * m - below) * unit, 4 * m * unit, (4 * m + 2) * unit, den, m % 2 = 0⟩

/-- The decimal lies in the interval. -/
def contains (nb : Neighbourhood) (d : Scaled) : Bool :=
  let (num, den) :=
    if 0 ≤ d.exponent then (d.digits * Nat.pow 10 d.exponent.toNat, 1)
    else (d.digits, Nat.pow 10 (-d.exponent).toNat)
  let v := num * nb.den
  if nb.closed then decide (nb.low * den ≤ v) && decide (v ≤ nb.high * den)
  else decide (nb.low * den < v) && decide (v < nb.high * den)

/-- The better of the two neighbours with `k` digits, if one of them lies in the interval. -/
def best? (nb : Neighbourhood) (k : Nat) : Option Scaled :=
  let e := magnitude nb.centre nb.den - k
  let (num, den) :=
    if 0 ≤ e then (nb.centre, nb.den * Nat.pow 10 e.toNat)
    else (nb.centre * Nat.pow 10 (-e).toNat, nb.den)
  let q := num / den
  let lower : Scaled := ⟨q, e⟩
  let upper : Scaled := if q + 1 = Nat.pow 10 k then ⟨1, e + k⟩ else ⟨q + 1, e⟩
  match nb.contains lower, nb.contains upper with
  | true, true => if 2 * (num % den) < den then some lower else some upper
  | true, false => some lower
  | false, true => some upper
  | false, false => none

/-- The fewest digits, at most 17, that lie in the interval. -/
def shortest (nb : Neighbourhood) : Scaled :=
  ((List.range 17).findSome? fun k => nb.best? (k + 1)).getD ⟨0, 0⟩

end Neighbourhood

/-- A decimal written out, without an exponent. -/
def Scaled.text (d : Scaled) : String :=
  let ds := Nat.toDigits 10 d.digits
  if 0 ≤ d.exponent then String.ofList (ds ++ List.replicate d.exponent.toNat '0')
  else
    let places := (-d.exponent).toNat
    let padded := List.replicate (places + 1 - ds.length) '0' ++ ds
    let split := padded.length - places
    String.ofList (padded.take split ++ '.' :: padded.drop split)

/-- The text of a finite number; zero keeps its sign. -/
def Binary64.text (x : Binary64) : String :=
  (if x.negative then "-" else "") ++
    if x.mantissa = 0 then "0" else (Neighbourhood.ofBinary x).shortest.text

/-- The text of a machine number. -/
def floatText (x : Float) : String :=
  match Binary64.ofFloat? x with
  | some b => b.text
  | none => if x.isNaN then "NaN" else if x < 0 then "-inf" else "inf"

end Parlance.Decimal
