import Parlance.Text.Marks
import Parlance.Text.Wide

/-
  How many terminal columns a character takes by itself. Wide characters take two columns; marks
  and what cannot be seen take none, and every other character takes one, controls included.
-/

namespace Parlance.Text

/-- Vowels and final consonants of Hangul that are drawn into the syllable they belong to. -/
def hangulTails : Blocks := [(0x1160, 0x11FF), (0xD7B0, 0xD7C6), (0xD7CB, 0xD7FB)]

/-- Signs that are drawn above or around what follows them, and the Devanagari caret. -/
def enclosing : Blocks :=
  [(0x0605, 0x0605), (0x070F, 0x070F), (0x0890, 0x0891), (0x08E2, 0x08E2), (0x0D4E, 0x0D4E),
   (0xA8FA, 0xA8FA), (0x111C2, 0x111C3), (0x113D1, 0x113D1), (0x1193F, 0x1193F),
   (0x11941, 0x11941), (0x11A84, 0x11A89), (0x11D46, 0x11D46), (0x11F02, 0x11F02)]

/-- The character takes no column of its own. -/
def isWidthless (c : Char) : Bool :=
  extending.covers c || ignorable.covers c || hangulTails.covers c || enclosing.covers c

/-- Letters that stand for a region, two by two. -/
def regionalIndicators : Blocks := [(0x1F1E6, 0x1F1FF)]

/-- The columns of a character. A regional indicator takes one, since a pair of them is drawn as a
flag of two columns. Four characters are wider than their properties say: the Tifinagh joiner, the
filler for an initial consonant of Hangul, and two letters of Khmer. -/
def charWidth (c : Char) : Nat :=
  let n := c.toNat
  if n ≤ 0xA0 ∨ n = 0x2D7F ∨ regionalIndicators.covers c then 1
  else if n = 0x115F ∨ n = 0x17A4 then 2
  else if n = 0x17D8 then 3
  else if isWidthless c then 0
  else if wide.covers c then 2
  else 1

end Parlance.Text
