import Parlance.Decimal.Shortest
import Parlance.Error
import Parlance.Text.Words

/-
  The values of scripted languages, and their text.
-/

namespace Parlance.Script

/-- A literal, a list, or a call that stands for itself. -/
inductive Value where
  | int (n : Int)
  | number (x : Decimal.Binary64)
  | string (s : String)
  | bool (b : Bool)
  | list (items : List Value)
  | call (keyword : String) (args : List Value)

/-- The text of a whole number. -/
def intText : Int → String
  | .ofNat n => n.repr
  | .negSucc n => "-" ++ (n + 1).repr

namespace Value

mutual

/-- A whole number is marked by `i`, a text stands between single quotes, and lists and calls
separate their parts by commas. -/
def text : Value → String
  | int n => intText n ++ "i"
  | number x => x.text
  | string s => "'" ++ s ++ "'"
  | bool b => if b then "true" else "false"
  | list items => "[" ++ Text.joinWith "," (textAll items) ++ "]"
  | call keyword args => keyword ++ "(" ++ Text.joinWith "," (textAll args) ++ ")"
termination_by structural v => v

/-- The texts of a list of values. -/
def textAll : List Value → List String
  | [] => []
  | v :: rest => v.text :: textAll rest
termination_by structural vs => vs

end

end Value

end Parlance.Script
