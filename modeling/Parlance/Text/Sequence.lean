import Parlance.Text.CharWidth
import Parlance.Text.Emoji

/-
  Sequences of characters that are drawn as one: a line break of two characters, a pictograph with
  a skin tone, pictographs put together by joiners, and the ligatures of a few scripts. A text is
  read from its end, so that a sequence is known by what has been read of its end.
-/

namespace Parlance.Text

/-- The start of a sequence that is drawn as one, as far as it has been read from its end. -/
inductive Pending where
  | nothing
  | lineFeed
  /-- A pictograph. -/
  | pictograph
  /-- A skin tone, which is drawn on the pictograph before it. -/
  | skinTone
  /-- So many regional indicators in a row; two of them are a flag. -/
  | indicators (n : Nat)
  /-- A joiner and a pictograph. -/
  | joined
  /-- A keycap before a joiner and a pictograph. -/
  | joinedKeycap
  /-- So many regional indicators before a joiner and a pictograph. -/
  | joinedIndicators (n : Nat)
  /-- The last letters of the name of a region, before a joiner and a pictograph. -/
  | joinedLetters (n : Nat)
  /-- The last digits of the name of a region, before a joiner and a pictograph. -/
  | joinedDigits (n : Nat)
  /-- Kirat Rai: the vowel signs e and ai. -/
  | signE
  | signAi
  /-- Arabic: an alef, which merges with a lam. -/
  | alef
  /-- Hebrew: a lamed, and whether a joiner stands before it. -/
  | lamed (joiner : Bool)
  /-- Buginese: a ya, and whether a joiner stands before it. -/
  | ya (joiner : Bool)
  /-- Buginese: the vowel sign i before a joiner and a ya. -/
  | vowelYa
  /-- Tifinagh: a consonant, and whether a joiner stands before it. -/
  | consonant (joiner : Bool)
  /-- Tifinagh: the joiner of that script before a consonant. -/
  | scriptJoiner
  /-- Lisu: a second tone letter. -/
  | tone
  /-- Old Turkic: the letter i, and whether a joiner stands before it. -/
  | orkhonI (joiner : Bool)
  /-- Khmer: a letter that can be written below another one. -/
  | subscript
  deriving DecidableEq, Repr

namespace Pending

/-- A ligature of a script. -/
def isLigature : Pending → Bool
  | alef | lamed _ | ya _ | vowelYa | consonant _ | scriptJoiner | tone | orkhonI _ | subscript =>
    true
  | _ => false

/-- The ligature with a joiner before it. -/
def join : Pending → Pending
  | lamed _ => lamed true
  | ya _ => ya true
  | consonant _ => consonant true
  | orkhonI _ => orkhonI true
  | p => p

end Pending

/-! ## Characters with a part in a sequence -/

/-- The zero-width joiner. -/
def joiner : Char := Char.ofNat 0x200D

/-- Skin tones. -/
def skinTones : Blocks := [(0x1F3FB, 0x1F3FF)]

/-- The letters of tags. -/
def tagLetters : Blocks := [(0xE0061, 0xE007A)]

/-- The digits of tags. -/
def tagDigits : Blocks := [(0xE0030, 0xE0039)]

/-- Arabic letters that are written like lam. -/
def lams : Blocks :=
  [(0x0644, 0x0644), (0x06B5, 0x06B8), (0x076A, 0x076A), (0x08A6, 0x08A6), (0x08C7, 0x08C7)]

/-- Arabic letters that are written like alef. -/
def alefs : Blocks :=
  [(0x0622, 0x0623), (0x0625, 0x0625), (0x0627, 0x0627), (0x0671, 0x0673), (0x0675, 0x0675),
   (0x0773, 0x0774), (0x0870, 0x0882)]

/-- Khmer letters that can be written below another one. -/
def khmerSubscripts : Blocks :=
  [(0x1780, 0x1782), (0x1784, 0x1787), (0x1789, 0x178C), (0x178E, 0x1793), (0x1795, 0x1798),
   (0x179B, 0x179D), (0x17A0, 0x17A0), (0x17A2, 0x17A2), (0x17A7, 0x17A7), (0x17AB, 0x17AC),
   (0x17AF, 0x17AF)]

/-- Consonants of Tifinagh. -/
def tifinaghConsonants : Blocks := [(0x2D31, 0x2D65), (0x2D6F, 0x2D6F)]

/-- First tone letters of Lisu. -/
def firstTones : Blocks := [(0xA4F8, 0xA4FB)]

/-- Second tone letters of Lisu, which merge with a first one. -/
def secondTones : Blocks := [(0xA4FC, 0xA4FD)]

/-- Marks that cannot be seen and do not break up a ligature. -/
def silentMarks : Blocks :=
  [(0x034F, 0x034F), (0x17B4, 0x17B5), (0x180B, 0x180D), (0x180F, 0x180F), (0xFE00, 0xFE0F),
   (0xE0100, 0xE01EF)]

/-- Characters without a column that do break up a connection of Arabic letters. -/
def breaking : Blocks :=
  [(0x0605, 0x0605), (0x0890, 0x0891), (0x08E2, 0x08E2), (0x09BE, 0x09BE), (0x09D7, 0x09D7),
   (0x0B3E, 0x0B3E), (0x0B57, 0x0B57), (0x0BBE, 0x0BBE), (0x0BD7, 0x0BD7), (0x0CC0, 0x0CC0),
   (0x0CC2, 0x0CC2), (0x0CC7, 0x0CC8), (0x0CCA, 0x0CCB), (0x0CD5, 0x0CD6), (0x0D3E, 0x0D3E),
   (0x0D4E, 0x0D4E), (0x0D57, 0x0D57), (0x0DCF, 0x0DCF), (0x0DDF, 0x0DDF), (0x1160, 0x11FF),
   (0x1715, 0x1715), (0x1734, 0x1734), (0x180E, 0x180E), (0x1B35, 0x1B35), (0x1B3B, 0x1B3B),
   (0x1B3D, 0x1B3D), (0x1B43, 0x1B44), (0x1BAA, 0x1BAA), (0x1BF2, 0x1BF3), (0x200C, 0x200D),
   (0x2065, 0x2069), (0x302E, 0x302F), (0x3164, 0x3164), (0xA8FA, 0xA8FA), (0xA953, 0xA953),
   (0xA9C0, 0xA9C0), (0xD7B0, 0xD7C6), (0xD7CB, 0xD7FB), (0xFF9E, 0xFFA0), (0xFFF0, 0xFFF8),
   (0x111C0, 0x111C0), (0x111C2, 0x111C3), (0x11235, 0x11235), (0x1133E, 0x1133E),
   (0x1134D, 0x1134D), (0x11357, 0x11357), (0x113B8, 0x113B8), (0x113C2, 0x113C2),
   (0x113C5, 0x113C5), (0x113C7, 0x113C9), (0x113CF, 0x113CF), (0x113D1, 0x113D1),
   (0x114B0, 0x114B0), (0x114BD, 0x114BD), (0x115AF, 0x115AF), (0x116B6, 0x116B6),
   (0x11930, 0x11930), (0x1193D, 0x1193D), (0x1193F, 0x1193F), (0x11941, 0x11941),
   (0x11A84, 0x11A89), (0x11D46, 0x11D46), (0x11F02, 0x11F02), (0x11F41, 0x11F41),
   (0x16FF0, 0x16FF1), (0x1D165, 0x1D166), (0x1D16D, 0x1D172), (0xE0000, 0xE0000),
   (0xE0002, 0xE001F), (0xE0080, 0xE00FF), (0xE01F0, 0xE0FFF)]

/-- The character does not break up a connection of Arabic letters. -/
def isTransparent (c : Char) : Bool := charWidth c == 0 && !breaking.covers c

/-! ## Reading from the end -/

/-- What a character by itself leaves open. -/
def Pending.ofChar (c : Char) : Pending :=
  if c.toNat ≤ 0xA0 then if c = '\n' then .lineFeed else .nothing
  else if regionalIndicators.covers c then .indicators 1
  else if skinTones.covers c then .skinTone
  else if pictographs.covers c then .pictograph
  else if alefs.covers c then .alef
  else if khmerSubscripts.covers c then .subscript
  else if tifinaghConsonants.covers c then .consonant false
  else if secondTones.covers c then .tone
  else if c.toNat = 0x05DC then .lamed false
  else if c.toNat = 0x1A10 then .ya false
  else if c.toNat = 0x10C03 then .orkhonI false
  else if c.toNat = 0x16D67 then .signE
  else if c.toNat = 0x16D68 then .signAi
  else .nothing

/-- How a character goes on with a sequence: the columns that it adds, and the longer sequence. A
sequence that turns out to be drawn in fewer columns than its parts adds a negative number. -/
def Pending.extend? (p : Pending) (c : Char) : Option (Int × Pending) :=
  match p with
  | .nothing | .lineFeed => none
  | .pictograph => if c = joiner then some (0, .joined) else none
  | .skinTone =>
    if skinToneBases.covers c then some (0, .pictograph)
    else if c = joiner then some (0, .joined)
    else none
  | .indicators n =>
    if regionalIndicators.covers c then some (1, .indicators (n + 1))
    else if c = joiner ∧ 2 ≤ n then some (0, .joined)
    else none
  | .joined =>
    if c.toNat = 0x20E3 then some (0, .joinedKeycap)
    else if regionalIndicators.covers c then some (1, .joinedIndicators 1)
    else if skinTones.covers c then some (0, .skinTone)
    else if c.toNat = 0xE007F then some (0, .joinedLetters 0)
    else if pictographs.covers c then some (0, .pictograph)
    else none
  | .joinedKeycap => none
  | .joinedIndicators n =>
    if regionalIndicators.covers c then
      some (if n % 2 = 1 then -1 else 3, .joinedIndicators (n + 1))
    else if c = joiner ∧ 2 ≤ n then some (0, .joined)
    else none
  | .joinedLetters n =>
    if tagLetters.covers c ∧ n < 6 then some (0, .joinedLetters (n + 1))
    else if tagDigits.covers c ∧ n < 5 then some (0, .joinedDigits 1)
    else if c.toNat = 0x1F3F4 ∧ 3 ≤ n then some (0, .pictograph)
    else none
  | .joinedDigits n =>
    if tagDigits.covers c ∧ n < 3 then some (0, .joinedDigits (n + 1))
    else if c.toNat = 0x1F3F4 ∧ n = 3 then some (0, .pictograph)
    else none
  | .signE =>
    if c.toNat = 0x16D63 ∨ c.toNat = 0x16D69 then some (0, .nothing)
    else if c.toNat = 0x16D67 then some (0, .signAi)
    else if c.toNat = 0x16D68 then some (1, .signE)
    else none
  | .signAi => if c.toNat = 0x16D63 then some (0, .nothing) else none
  | .alef =>
    if lams.covers c then some (0, .nothing)
    else if isTransparent c then some (0, .alef)
    else none
  | .lamed j => if c.toNat = 0x05D0 ∧ j then some (0, .nothing) else none
  | .ya j => if c.toNat = 0x1A17 ∧ j then some (0, .vowelYa) else none
  | .vowelYa => if c.toNat = 0x1A15 then some (0, .nothing) else none
  | .consonant j =>
    if c.toNat = 0x2D7F then some (1, .scriptJoiner)
    else if tifinaghConsonants.covers c ∧ j then some (0, .nothing)
    else none
  | .scriptJoiner => if tifinaghConsonants.covers c then some (-1, .nothing) else none
  | .tone => if firstTones.covers c then some (0, .nothing) else none
  | .orkhonI j => if c.toNat = 0x10C32 ∧ j then some (0, .nothing) else none
  | .subscript => if c.toNat = 0x17D2 then some (-1, .nothing) else none

end Parlance.Text
