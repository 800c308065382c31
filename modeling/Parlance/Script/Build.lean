import Parlance.Language
import Parlance.Script.Behaviour
import Parlance.Text.Quoted

/-
  Scripted vocabularies: types are made and defined step by step, and rules can be kept under a
  name and used again. A name stands for what it was given to last. An expression means the types
  and rules that its names stand for when the step is done, so that giving a name again changes
  nothing that has been built before.
-/

namespace Parlance.Script

/-- A type of a scripted vocabulary: the number of types that were made before it. -/
abbrev Key := Nat

/-- A vocabulary with scripted handlers. -/
abbrev Lexicon := Vocabulary Key Log Value

/-- A rule, or the name under which one is kept. -/
inductive RuleRef where
  | kept (name : String)
  | given (rule : ScriptRule)

/-- A step of the construction. -/
inductive Step where
  | declare (name tag : String)
  | define (name : String) (rules : List RuleRef) (fallback : Option (Expr String Value))
  | introduce (name tag : String) (rules : List RuleRef) (fallback : Option (Expr String Value))
  /-- A type with one rule, with the tag of its keyword. -/
  | ofRule (name : String) (rule : RuleRef)
  | keep (name : String) (rule : RuleRef)

/-- What can be seen of a type. -/
structure Summary where
  tag : String
  defined : Bool
  keywords : List String
  hasFallback : Bool

/-- The answer to a step. -/
inductive Answer where
  | rule (keyword : String) (arity : Nat)
  | type (summary : Summary) (failure : Option Error)
  /-- The step uses a name that stands for nothing. -/
  | unknown

/-- The types made so far, and what the names of types and of rules stand for, the latest
first. -/
structure Workshop where
  lexicon : Lexicon := .undefined fun _ => ""
  made : Nat := 0
  types : List (String × Key) := []
  rules : List (String × Recorded.Rule Key Value) := []

namespace Workshop

/-- The type that a name stands for. -/
def key? (s : Workshop) (name : String) : Option Key := s.types.lookup name

/-- The expression that is meant. -/
def expr? (s : Workshop) (e : Expr String Value) : Option (Expr Key Value) :=
  e.rename? s.key?

/-- The rule that is meant. -/
def rule? (s : Workshop) : RuleRef → Option (Recorded.Rule Key Value)
  | .kept name => s.rules.lookup name
  | .given rule => rule.rename? s.key?

/-- The table of the rules and the fallback that are meant. -/
def table? (s : Workshop) (rules : List RuleRef) (fallback : Option (Expr String Value)) :
    Option (Table Key Log Value) :=
  match rules.mapM s.rule?, fallback.mapM s.expr? with
  | some rules, some fallback => some (.ofRules (rules.map Recorded.Rule.toRule) fallback)
  | _, _ => none

/-- What can be seen of a type. -/
def summary (s : Workshop) (key : Key) : Summary :=
  ⟨s.lexicon.tag key, (s.lexicon.table key).isSome, s.lexicon.keywords key,
    s.lexicon.hasFallback key⟩

/-- Makes a type and gives it a name. -/
def make (s : Workshop) (name tag : String) : Key × Workshop :=
  (s.made,
    { s with
      lexicon := s.lexicon.declare s.made tag
      made := s.made + 1
      types := (name, s.made) :: s.types })

/-- Defines a type; a type that is defined stays as it is. -/
def define (s : Workshop) (key : Key) (table : Table Key Log Value) : Answer × Workshop :=
  match s.lexicon.define key table with
  | .ok lexicon =>
    let s := { s with lexicon := lexicon }
    (.type (s.summary key) none, s)
  | .error error => (.type (s.summary key) (some error), s)

/-- Makes a type and defines it. -/
def introduce (s : Workshop) (name tag : String) (table : Table Key Log Value) :
    Answer × Workshop :=
  let (key, s) := s.make name tag
  s.define key table

/-- Does a step. -/
def step (s : Workshop) : Step → Answer × Workshop
  | .declare name tag =>
    let (key, s) := s.make name tag
    (.type (s.summary key) none, s)
  | .define name rules fallback =>
    match s.key? name, s.table? rules fallback with
    | some key, some table => s.define key table
    | _, _ => (.unknown, s)
  | .introduce name tag rules fallback =>
    match s.table? rules fallback with
    | some table => s.introduce name tag table
    | none => (.unknown, s)
  | .ofRule name ref =>
    match s.rule? ref with
    | some rule => s.introduce name rule.keyword (.ofRules [rule.toRule] none)
    | none => (.unknown, s)
  | .keep name ref =>
    match s.rule? ref with
    | some rule =>
      (.rule rule.keyword rule.args.length, { s with rules := (name, rule) :: s.rules })
    | none => (.unknown, s)

/-- Does steps one after the other. -/
def steps (s : Workshop) : List Step → List Answer × Workshop
  | [] => ([], s)
  | x :: rest =>
    let (answer, s) := s.step x
    let (answers, s) := s.steps rest
    (answer :: answers, s)

end Workshop

/-- The type as it is named in messages for developers. -/
def Summary.debug (s : Summary) : String := "Expr(" ++ Text.quoted s.tag ++ ")"

end Parlance.Script
