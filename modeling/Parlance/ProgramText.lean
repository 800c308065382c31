import Parlance.Error
import Parlance.Text.Words

/-
  The program as one line of text, for reports that point at a token. The tokens are joined by
  single spaces, and each token keeps its span of UTF-8 bytes in that line.
-/

namespace Parlance

/-- A range of bytes. -/
structure Span where
  offset : Nat
  length : Nat
  deriving DecidableEq, Repr

/-- The joined line and the span of every token in it. -/
structure ProgramText where
  text : String
  spans : List Span
  deriving DecidableEq, Repr

namespace ProgramText

/-- The spans of the tokens when the first one starts at byte `offset`; one byte, the space,
stands between neighbours. -/
def spansFrom (offset : Nat) : List String → List Span
  | [] => []
  | a :: rest => ⟨offset, a.utf8ByteSize⟩ :: spansFrom (offset + a.utf8ByteSize + 1) rest

/-- The tokens joined by single spaces, with their spans. -/
def ofTokens (tokens : List String) : ProgramText :=
  ⟨Text.joinWith " " tokens, spansFrom 0 tokens⟩

/-- The span of a token; a position past the last token gives the empty span at the end. -/
def spanAt (p : ProgramText) (position : Nat) : Span :=
  p.spans.getD position ⟨p.text.utf8ByteSize, 0⟩

/-- The span that a failure points at, if it points at a token. -/
def locate (p : ProgramText) (e : Error) : Option Span := e.position?.map p.spanAt

end ProgramText

end Parlance
