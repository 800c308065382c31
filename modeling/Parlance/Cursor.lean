import Parlance.Error

/-
  Tokens and the cursor that hands them out. A cursor never changes its tokens; reading moves
  the index forward by one, and `undo` takes one reading back.
-/

namespace Parlance

/-- A word of the program and its index in the token list. -/
structure Token where
  value : String
  position : Nat
  deriving DecidableEq, Repr

/-- The token and where it stands, as `"add" at index 0`. -/
def Token.located (t : Token) : String :=
  "\"" ++ t.value ++ "\" at index " ++ t.position.repr

/-- A reading position in a list of words: `index` words have been read. -/
structure Cursor where
  tokens : List String
  index : Nat := 0
  deriving DecidableEq, Repr

namespace Cursor

/-- A cursor in front of the first word. -/
def ofTokens (tokens : List String) : Cursor := ⟨tokens, 0⟩

/-- Every word has been read. -/
def finished (c : Cursor) : Bool := c.index == c.tokens.length

/-- There is a word to read. -/
def hasNext (c : Cursor) : Bool := decide (c.index < c.tokens.length)

/-- The number of words not yet read. -/
def remaining (c : Cursor) : Nat := c.tokens.length - c.index

/-- The index of the word read last. -/
def lastIndex? (c : Cursor) : Option Nat :=
  if c.index = 0 then none else some (c.index - 1)

/-- Reads one word. At the end of the input the failure names what was expected there. -/
def next (c : Cursor) (expected : String) : Except Error (Token × Cursor) :=
  match c.tokens[c.index]? with
  | some value => .ok (⟨value, c.index⟩, { c with index := c.index + 1 })
  | none => .error (.exhausted expected c.index)

/-- Takes back one reading. -/
def undo (c : Cursor) : Cursor := { c with index := c.index - 1 }

/-- Reading and then taking it back leaves the cursor where it was. -/
theorem undo_of_next {c c' : Cursor} {expected : String} {t : Token}
    (h : c.next expected = .ok (t, c')) : c'.undo = c := by
  unfold next at h
  split at h
  · cases h; simp [undo]
  · cases h

end Cursor

end Parlance
