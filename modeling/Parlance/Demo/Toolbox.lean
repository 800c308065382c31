import Parlance.FileStore
import Parlance.Language
import Parlance.Language.Literal

/-
  File commands. `writeFile` writes what a source gives: the text of a file, a word, or words
  joined by a separator.

    writeFile out.txt join , a b c -
    writeFile copy.txt readFile out.txt

  The commands are those of any file system (`languageOn`), which is touched when the work is
  driven and not when it is launched. `language` has them on a store in memory.
-/

namespace Parlance.Demo.Toolbox

/-- Commands, and sources of text. -/
inductive Name where
  | command
  | source
  deriving DecidableEq, Repr

/-- What an expression stands for. -/
inductive Value where
  | text (s : String)
  | words (ws : List String)
  deriving DecidableEq, Repr

variable {S : Type}

/-- What the rules do. -/
abbrev Action (S : Type) := Job S Value Value

/-- The text at a place; the parser sees to it that there is one. -/
def textAt (args : List Value) (i : Nat) : String :=
  match args[i]? with
  | some (.text s) => s
  | _ => ""

/-- The words at a place. -/
def wordsAt (args : List Value) (i : Nat) : List String :=
  match args[i]? with
  | some (.words ws) => ws
  | _ => []

/-- The list of the texts among the values. -/
def gather (values : List Value) : Value :=
  .words (values.filterMap fun v => match v with | .text s => some s | .words _ => none)

/-- What is said of a text that has been written. -/
def receipt (path text : String) : String :=
  "wrote " ++ text.utf8ByteSize.repr ++ " bytes to " ++ path

/-- Reads a file. -/
def readAction (files : FileSystem S) (path : String) : Action S := (files.read path).map .text

/-- Writes a file and says how much. -/
def writeAction (files : FileSystem S) (path text : String) : Action S :=
  (files.write path text).map fun _ => .text (receipt path text)

/-- A word. -/
def word : Expr Name Value := .prim (Literal.string.map .text)

/-- Words up to `-` or to the end of the input. -/
def words : Expr Name Value := .rep ⟨.sequential, some "-", gather⟩ word

/-- The sources. -/
def sourceRules (files : FileSystem S) : List (Rule Name S Value) :=
  [⟨"readFile", [word], fun args => readAction files (textAt args 0)⟩,
   ⟨"token", [word], fun args => .pure (.text (textAt args 0))⟩,
   ⟨"join", [word, words], fun args =>
      .pure (.text (Text.joinWith (textAt args 0) (wordsAt args 1)))⟩]

/-- The commands. -/
def commandRules (files : FileSystem S) : List (Rule Name S Value) :=
  [⟨"writeFile", [word, .type .source], fun args =>
      writeAction files (textAt args 0) (textAt args 1)⟩]

/-- The types, neither of which has a fallback. -/
def vocabularyOn (files : FileSystem S) : Vocabulary Name S Value where
  tag
    | .command => "command"
    | .source => "source"
  table
    | .command => some (.ofRules (commandRules files) none)
    | .source => some (.ofRules (sourceRules files) none)
  names := [.command, .source]
  mem_names := by intro i _; cases i <;> simp

/-- The language of file commands on a file system. -/
def languageOn (files : FileSystem S) : Language Name S Value :=
  ⟨"toolbox", .type .command, vocabularyOn files⟩

/-- The types on a store in memory. -/
def vocabulary : Vocabulary Name FileStore Value := vocabularyOn FileStore.files

/-- The language of file commands on a store in memory. -/
def language : Language Name FileStore Value := languageOn FileStore.files

/-- The text of a value. -/
def Value.show : Value → String
  | text s => s
  | words ws => Text.joinWith " " ws

end Parlance.Demo.Toolbox
