import Parlance.Grammar
import Parlance.Text.Width
import Parlance.Text.Words

/-
  The printed grammar. Each production is a block: the tag and a colon, one line per alternative,
  and an empty line. Within a block the symbols stand in columns, each column as wide as its
  widest symbol; the last symbol of a line is not padded. How wide a text is, is a parameter:
  printing uses terminal columns.
-/

namespace Parlance

namespace Layout

/-- The larger entry at each place; where one list has ended, the other's entry. -/
def maxima : List Nat → List Nat → List Nat
  | [], ws => ws
  | vs, [] => vs
  | v :: vs, w :: ws => max v w :: maxima vs ws

/-- The width of each column: the largest width among the symbols that stand in it. -/
def columns (width : String → Nat) (rows : List (List String)) : List Nat :=
  rows.foldl (fun widths row => maxima widths (row.map width)) []

/-- `n` blanks. -/
def blanks (n : Nat) : String := String.ofList (List.replicate n ' ')

/-- The symbols of a line, a blank before each and padding behind each but the last. -/
def cells (width : String → Nat) : List Nat → List String → String
  | _, [] => ""
  | _, [cell] => " " ++ cell
  | [], cell :: rest => " " ++ cell ++ cells width [] rest
  | w :: ws, cell :: rest => " " ++ cell ++ blanks (w - width cell) ++ cells width ws rest

/-- The lines of a production. -/
def block (width : String → Nat) (p : Production) : List String :=
  let rows := p.alternatives.map fun alternative => alternative.map Sym.text
  let widths := columns width rows
  (p.tag ++ ":") :: rows.map (fun row => " |" ++ cells width widths row) ++ [""]

/-- The printed grammar when texts are measured by `width`. -/
def text (width : String → Nat) (g : Grammar) : String :=
  Text.joinWith "\n" (g.productions.flatMap (block width))

end Layout

/-- The printed grammar, its columns aligned on a terminal. -/
def Grammar.format (g : Grammar) : String := Layout.text Text.width g

end Parlance
