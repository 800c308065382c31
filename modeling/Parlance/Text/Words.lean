/-
  Words of a line. A word is a longest run of characters that are not blank, where blank means
  the Unicode property White_Space. `words` cuts a line into its words, `joinWith` puts texts
  together with a separator, and `trim` strips the blanks at both ends. `pieces` cuts a list at
  every separator.
-/

namespace Parlance.Text

/-- The Unicode property White_Space. -/
def isBlank (c : Char) : Bool :=
  let n := c.toNat
  (0x09 ≤ n && n ≤ 0x0D) || n == 0x20 || n == 0x85 || n == 0xA0 || n == 0x1680 ||
    (0x2000 ≤ n && n ≤ 0x200A) || n == 0x2028 || n == 0x2029 || n == 0x202F || n == 0x205F ||
    n == 0x3000

/-- Adds a word in front, unless it is empty. -/
def consWord (word : List Char) (rest : List (List Char)) : List (List Char) :=
  if word.isEmpty then rest else word :: rest

/-- The word that reaches up to the front of the text, empty if a blank stands there, and the
words after it. -/
def scanWords : List Char → List Char × List (List Char)
  | [] => ([], [])
  | c :: cs =>
    let (word, rest) := scanWords cs
    if isBlank c then ([], consWord word rest) else (c :: word, rest)

/-- The words of a text, as lists of characters. -/
def splitBlanks (cs : List Char) : List (List Char) :=
  consWord (scanWords cs).1 (scanWords cs).2

/-- The words of a line, from left to right. -/
def words (line : String) : List String := (splitBlanks line.toList).map String.ofList

/-- The line without the blanks at its two ends. -/
def trim (line : String) : String :=
  String.ofList ((line.toList.dropWhile isBlank).reverse.dropWhile isBlank).reverse

/-- The texts in order, with `separator` between any two neighbours. -/
def joinWith (separator : String) : List String → String
  | [] => ""
  | [a] => a
  | a :: b :: rest => a ++ separator ++ joinWith separator (b :: rest)

theorem joinWith_eq_intercalate (separator : String) (texts : List String) :
    joinWith separator texts = separator.intercalate texts := by
  induction texts with
  | nil => rw [joinWith, String.intercalate_nil]
  | cons a rest ih =>
    cases rest with
    | nil => rw [joinWith, String.intercalate_singleton]
    | cons b rest => rw [joinWith, ih, String.intercalate_cons_cons]

/-- What stands before, between and after the separators; one piece more than there are
separators. -/
def pieces {α : Type} [DecidableEq α] (separator : α) : List α → List (List α)
  | [] => [[]]
  | a :: rest =>
    match pieces separator rest with
    | [] => [[a]]
    | piece :: more => if a = separator then [] :: piece :: more else (a :: piece) :: more

end Parlance.Text
