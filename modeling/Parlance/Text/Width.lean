import Parlance.Text.Sequence

/-
  How many terminal columns a text takes. In most texts this is the sum over the characters, but a
  sequence that is drawn as one takes fewer columns than its parts, and a selector changes the
  width of the character before it. A text is read from its end, and `Ahead` is what the
  characters that follow a place have left open for the character at that place.
-/

namespace Parlance.Text

/-- What the characters that follow a place have left open: a sequence, and selectors that ask for
a pictograph, for text, or for a wide quotation mark. -/
structure Ahead where
  pending : Pending := .nothing
  asPictograph : Bool := false
  asText : Bool := false
  asWide : Bool := false
  deriving DecidableEq, Repr

/-- Quotation marks that a selector makes wide. -/
def quotationMarks : Blocks := [(0x2018, 0x2019), (0x201C, 0x201D)]

/-- A pictograph that a selector turns into text of one column. -/
def isNarrowAsText (c : Char) : Bool :=
  pictographs.covers c && styled.covers c && !(0x1F200 ≤ c.toNat && c.toNat ≤ 0x1F2FF)

namespace Ahead

/-- Changes a selector, and forgets everything else unless it is to be kept. -/
def select (a : Ahead) (keep : Bool) (set : Ahead → Ahead) : Ahead :=
  set (if keep then a else {})

/-- The character by itself. -/
def alone (c : Char) : Int × Ahead := (charWidth c, { pending := .ofChar c })

/-- The character in a sequence, or by itself if it does not go on with the sequence. -/
def proceed (a : Ahead) (c : Char) : Int × Ahead :=
  if a.pending.isLigature ∧ a.pending ≠ .alef ∧ c = joiner then
    (0, { a with pending := a.pending.join })
  else if a.pending.isLigature ∧ a.pending ≠ .alef ∧ silentMarks.covers c then (0, a)
  else if a.asWide then alone c  -- an open selector stands between the sequence and the character
  else
    match a.pending.extend? c with
    | some (columns, pending) => (columns, { pending := pending })
    | none => alone c

/-- The character before what is ahead, if that asks for no pictograph here: what it adds to the
columns, and what is ahead of the character before it. -/
def stepPlain (a : Ahead) (c : Char) : Int × Ahead :=
  let ligature := a.pending.isLigature
  if c.toNat ≤ 0xA0 then
    if c = '\r' ∧ a = { pending := .lineFeed } then (0, {}) else alone c
  else if c.toNat = 0xFE01 then (0, a.select ligature ({ · with asWide := true }))
  else if c.toNat = 0xFE0E then (0, a.select ligature ({ · with asText := true }))
  else if c.toNat = 0xFE0F then
    (0, a.select (ligature || a.pending = .joined || a.pending = .joinedKeycap)
      ({ · with asPictograph := true }))
  else if a.asText then
    if isNarrowAsText c then (1, {}) else proceed { a with asText := false } c
  else if a.asWide then
    if quotationMarks.covers c then (2, {}) else proceed { a with asWide := false } c
  else proceed a c

/-- The character before what is ahead. -/
def step (a : Ahead) (c : Char) : Int × Ahead :=
  if a.asPictograph then
    if styled.covers c then
      (if a.pending = .joined ∨ a.pending = .joinedKeycap then 0 else 2,
        { pending := .pictograph })
    else stepPlain (a.select a.pending.isLigature ({ · with asPictograph := false })) c
  else stepPlain a c

end Ahead

/-- The columns of a text. -/
def width (s : String) : Nat :=
  (s.toList.foldr
    (fun c (columns, ahead) =>
      let (more, ahead) := ahead.step c
      (columns + more, ahead))
    ((0 : Int), ({} : Ahead))).1.toNat

end Parlance.Text
