import Parlance.Language
import Parlance.Language.Literal

/-
  A language with two greetings: `hi`, and `hello` with a name.
-/

namespace Parlance.Demo.Greet

/-- The only type. -/
inductive Name where
  | greeting
  deriving DecidableEq, Repr

/-- The greeting for someone whose name is known. -/
def welcome (args : List String) : String :=
  "Hello " ++ args.headD "" ++ "! It is a great day today!"

/-- The greetings. -/
def rules : List (Rule Name Unit String) :=
  [⟨"hi", [], fun _ => .pure "Hi mysterious person!"⟩,
   ⟨"hello", [.prim Literal.string], fun args => .pure (welcome args)⟩]

/-- The type of greetings, which has no fallback. -/
def vocabulary : Vocabulary Name Unit String where
  tag _ := "greeting"
  table _ := some (.ofRules rules none)
  names := [.greeting]
  mem_names := by intro i _; cases i; simp

/-- The language of greetings. -/
def language : Language Name Unit String := ⟨"greet", .type .greeting, vocabulary⟩

end Parlance.Demo.Greet
