/-
  JSON documents and their written forms. A style says how lines are broken inside arrays and
  objects and what stands between a key and its value: `compact` leaves out every optional blank,
  and `pretty` puts each item on a line of its own, indented by two blanks a level. An empty array
  or object is written without a break in either style, and fields keep their order. In a string
  only the quote, the backslash and the control characters below U+0020 are escaped; every other
  character stands for itself.

  Writing takes the characters that follow the document, so that it is linear in the output.
-/

namespace Parlance

/-- A JSON document of the kinds that traces and grammars need. -/
inductive Json where
  | num (n : Nat)
  | str (s : String)
  | arr (items : List Json)
  | obj (fields : List (String × Json))

namespace Json

/-- The lower-case hexadecimal digit of a number below 16. -/
def hexDigit (d : Nat) : Char := if d < 10 then Char.ofNat (48 + d) else Char.ofNat (87 + d)

/-- A character as it stands inside a JSON string. -/
def escapeChar (c : Char) : List Char :=
  match c with
  | '\"' => ['\\', '\"']
  | '\\' => ['\\', '\\']
  | '\x08' => ['\\', 'b']
  | '\x0c' => ['\\', 'f']
  | '\n' => ['\\', 'n']
  | '\r' => ['\\', 'r']
  | '\t' => ['\\', 't']
  | c =>
    if c.toNat < 0x20 then
      ['\\', 'u', '0', '0', hexDigit (c.toNat / 16), hexDigit (c.toNat % 16)]
    else [c]

/-- A text between quotes, and what follows it. -/
def writeString (s : String) (rest : List Char) : List Char :=
  '\"' :: s.toList.foldr (fun c cs => escapeChar c ++ cs) ('\"' :: rest)

/-- How a document is laid out. -/
structure Style where
  /-- What stands before an item, and before the closing bracket, at a level. -/
  lineBreak : Nat → List Char
  /-- What stands between a key and its value. -/
  colon : List Char

mutual

/-- A document in a style, and what follows it. -/
def write (style : Style) (level : Nat) : Json → List Char → List Char
  | num n, rest => n.repr.toList ++ rest
  | str s, rest => writeString s rest
  | arr items, rest =>
    if items.isEmpty then '[' :: ']' :: rest
    else '[' :: writeItems style (level + 1) true items (style.lineBreak level ++ ']' :: rest)
  | obj fields, rest =>
    if fields.isEmpty then '\x7b' :: '\x7d' :: rest
    else
      '\x7b' ::
        writeFields style (level + 1) true fields (style.lineBreak level ++ '\x7d' :: rest)
termination_by structural j => j

/-- Items, with a comma before each but the first. -/
def writeItems (style : Style) (level : Nat) (first : Bool) : List Json → List Char → List Char
  | [], rest => rest
  | item :: items, rest =>
    (if first then [] else [',']) ++ style.lineBreak level ++
      write style level item (writeItems style level false items rest)
termination_by structural items => items

/-- Fields, with a comma before each but the first. -/
def writeFields (style : Style) (level : Nat) (first : Bool) :
    List (String × Json) → List Char → List Char
  | [], rest => rest
  | field :: fields, rest =>
    (if first then [] else [',']) ++ style.lineBreak level ++
      writeField style level field (writeFields style level false fields rest)
termination_by structural fields => fields

/-- A key and its value. -/
def writeField (style : Style) (level : Nat) : String × Json → List Char → List Char
  | (key, value), rest => writeString key (style.colon ++ write style level value rest)
termination_by structural field => field

end

/-- No optional blanks. -/
def compactStyle : Style := ⟨fun _ => [], [':']⟩

/-- Each item on a line of its own, indented by two blanks a level. -/
def prettyStyle : Style := ⟨fun level => '\n' :: List.replicate (2 * level) ' ', [':', ' ']⟩

/-- The document without optional blanks. -/
def compact (j : Json) : String := String.ofList (j.write compactStyle 0 [])

/-- The indented document. -/
def pretty (j : Json) : String := String.ofList (j.write prettyStyle 0 [])

end Json

end Parlance
