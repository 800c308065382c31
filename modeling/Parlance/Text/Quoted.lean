import Parlance.Text.Marks
import Parlance.Text.Unassigned
import Parlance.Text.Words

/-
  Texts between quotes, for developers: the quote, the backslash and what cannot be seen are
  escaped.
-/

namespace Parlance.Text

/-- Controls: the general category Control. -/
def controls : Blocks := [(0x0000, 0x001F), (0x007F, 0x009F)]

/-- Characters that only direct the layout: the general category Format. -/
def formats : Blocks :=
  [(0x00AD, 0x00AD), (0x0600, 0x0605), (0x061C, 0x061C), (0x06DD, 0x06DD), (0x070F, 0x070F),
   (0x0890, 0x0891), (0x08E2, 0x08E2), (0x180E, 0x180E), (0x200B, 0x200F), (0x202A, 0x202E),
   (0x2060, 0x2064), (0x2066, 0x206F), (0xFEFF, 0xFEFF), (0xFFF9, 0xFFFB), (0x110BD, 0x110BD),
   (0x110CD, 0x110CD), (0x13430, 0x1343F), (0x1BCA0, 0x1BCA3), (0x1D173, 0x1D17A),
   (0xE0001, 0xE0001), (0xE0020, 0xE007F)]

/-- Characters that are left to private agreement: the general category Private_Use. -/
def privateUse : Blocks := [(0xE000, 0xF8FF), (0xF0000, 0xFFFFD), (0x100000, 0x10FFFD)]

/-- The character is not shown as it is: it is a control, directs the layout, is a blank other
than the space, attaches to another character, may be ignored, or has no agreed meaning. -/
def isHidden (c : Char) : Bool :=
  controls.covers c || formats.covers c || (isBlank c && c != ' ') || extending.covers c ||
    ignorable.covers c || privateUse.covers c || unassigned.covers c

/-- A character inside quotes; a hidden one is written by its code point in hexadecimal. -/
def quotedChar (c : Char) : List Char :=
  match c with
  | '\"' => ['\\', '\"']
  | '\\' => ['\\', '\\']
  | '\n' => ['\\', 'n']
  | '\r' => ['\\', 'r']
  | '\t' => ['\\', 't']
  | '\x00' => ['\\', '0']
  | c =>
    if isHidden c then '\\' :: 'u' :: '\x7b' :: Nat.toDigits 16 c.toNat ++ ['\x7d'] else [c]

/-- A text between quotes. -/
def quoted (s : String) : String :=
  String.ofList ('\"' :: s.toList.flatMap quotedChar ++ ['\"'])

end Parlance.Text
