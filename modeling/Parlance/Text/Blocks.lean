/-
  Sets of characters as blocks of code points. The tables of Unicode properties are written this
  way.
-/

namespace Parlance.Text

/-- Blocks of code points, each with its first and its last one. -/
abbrev Blocks := List (Nat × Nat)

/-- The character lies in one of the blocks. -/
def Blocks.covers (blocks : Blocks) (c : Char) : Bool :=
  blocks.any fun (first, last) => first ≤ c.toNat && c.toNat ≤ last

end Parlance.Text
