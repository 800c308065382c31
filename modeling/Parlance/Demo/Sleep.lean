import Parlance.Language

/-
  A language of naps, taken in a row or all at once: `repeat sleep sleep` takes two naps of time
  and `parallel sleep sleep` takes one.
-/

namespace Parlance.Demo.Sleep

/-- A nap, and a way of taking naps. -/
inductive Name where
  | sleep
  | run
  deriving DecidableEq, Repr

/-- What an expression stands for. -/
inductive Value where
  | rested
  | naps (count : Nat)
  | report (text : String)
  deriving DecidableEq, Repr

/-- How many naps the first argument is. -/
def napCount (args : List Value) : Nat :=
  match args with
  | .naps count :: _ => count
  | _ => 0

/-- Any number of naps. -/
def naps (mode : Mode) : Expr Name Value :=
  .rep ⟨mode, none, fun values => .naps values.length⟩ (.type .sleep)

/-- A nap of the given length. -/
def napRule (nap : Nat) : Rule Name Unit Value :=
  ⟨"sleep", [], fun _ => (Job.sleep nap).map fun _ => .rested⟩

/-- The two ways of taking naps. -/
def runRules : List (Rule Name Unit Value) :=
  [⟨"repeat", [naps .sequential], fun args =>
      .pure (.report ((napCount args).repr ++ " naps in a row"))⟩,
   ⟨"parallel", [naps .joined], fun args =>
      .pure (.report ((napCount args).repr ++ " naps at once"))⟩]

/-- The types, with naps of the given length. -/
def vocabulary (nap : Nat) : Vocabulary Name Unit Value where
  tag
    | .sleep => "sleep"
    | .run => "run"
  table
    | .sleep => some (.ofRules [napRule nap] none)
    | .run => some (.ofRules runRules none)
  names := [.sleep, .run]
  mem_names := by intro i _; cases i <;> simp

/-- The language of naps of the given length. -/
def language (nap : Nat) : Language Name Unit Value := ⟨"sleep", .type .run, vocabulary nap⟩

/-- The text of a value. -/
def Value.text : Value → String
  | rested => ""
  | naps count => count.repr
  | report text => text

end Parlance.Demo.Sleep
