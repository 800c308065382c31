/-
  Where a sequence of bytes stops being UTF-8. A fault has the index of the first byte of the
  character that is not well formed, and the number of bytes that rule it out, or none if the
  bytes end in the middle of a character.
-/

namespace Parlance.Text

/-- The place where bytes stop being UTF-8. -/
structure Utf8Fault where
  index : Nat
  length : Option Nat
  deriving DecidableEq, Repr

namespace Utf8Fault

/-- Continues a character. -/
def isTail (b : UInt8) : Bool := 0x80 ≤ b && b ≤ 0xBF

/-- The tests for the bytes after a first byte, or none if no character starts with it. -/
def tails? (b : UInt8) : Option (List (UInt8 → Bool)) :=
  if b ≤ 0x7F then some []
  else if 0xC2 ≤ b && b ≤ 0xDF then some [isTail]
  else if b == 0xE0 then some [fun c => 0xA0 ≤ c && c ≤ 0xBF, isTail]
  else if b == 0xED then some [fun c => 0x80 ≤ c && c ≤ 0x9F, isTail]
  else if 0xE1 ≤ b && b ≤ 0xEF then some [isTail, isTail]
  else if b == 0xF0 then some [fun c => 0x90 ≤ c && c ≤ 0xBF, isTail, isTail]
  else if 0xF1 ≤ b && b ≤ 0xF3 then some [isTail, isTail, isTail]
  else if b == 0xF4 then some [fun c => 0x80 ≤ c && c ≤ 0x8F, isTail, isTail]
  else none

/-- Goes through the bytes. The character that is being read started at `start`, `seen` of its
bytes have been read, and `tests` are for the bytes that it still needs. -/
def scan (start seen : Nat) : List (UInt8 → Bool) → List UInt8 → Option Utf8Fault
  | [], [] => none
  | _ :: _, [] => some ⟨start, none⟩
  | [], b :: rest =>
    match tails? b with
    | some tests => scan (start + seen) 1 tests rest
    | none => some ⟨start + seen, some 1⟩
  | test :: tests, b :: rest =>
    if test b then scan start (seen + 1) tests rest else some ⟨start, some seen⟩

/-- The first fault in the bytes, if there is one. -/
def find? (bytes : List UInt8) : Option Utf8Fault := scan 0 0 [] bytes

/-- The text of a fault. -/
def message (f : Utf8Fault) : String :=
  match f.length with
  | some n => "invalid utf-8 sequence of " ++ n.repr ++ " bytes from index " ++ f.index.repr
  | none => "incomplete utf-8 byte sequence from index " ++ f.index.repr

end Utf8Fault

end Parlance.Text
