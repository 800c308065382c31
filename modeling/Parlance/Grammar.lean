import Parlance.Json

/-
  Published grammars: for each tag, the alternatives that it can stand for. A grammar is an
  ordered, write-once map, so that an expression that registers itself before it visits the
  expressions it refers to is visited once.
-/

namespace Parlance

/-- A symbol of an alternative. -/
inductive Sym where
  /-- What the tag stands for. -/
  | type (tag : String)
  /-- Any number of what the tag stands for. -/
  | many (tag : String)
  /-- The keyword itself. -/
  | exact (keyword : String)
  /-- The end of the input. -/
  | endOfInput
  deriving DecidableEq, Repr

/-- A tag and its alternatives, in order. -/
structure Production where
  tag : String
  alternatives : List (List Sym)
  deriving DecidableEq, Repr

/-- The productions in the order in which their tags were first inserted. -/
structure Grammar where
  productions : List Production
  deriving DecidableEq, Repr

namespace Sym

/-- The symbol as it is printed. -/
def text : Sym → String
  | type tag => "<" ++ tag ++ ">"
  | many tag => "<" ++ tag ++ "> *"
  | exact keyword => "\"" ++ keyword ++ "\""
  | endOfInput => "EOI"

/-- The symbol as a JSON object. -/
def toJson : Sym → Json
  | type tag => .obj [("kind", .str "type"), ("name", .str tag)]
  | many tag => .obj [("kind", .str "repeat"), ("name", .str tag)]
  | exact keyword => .obj [("kind", .str "exact"), ("name", .str keyword)]
  | endOfInput => .obj [("kind", .str "eoi")]

end Sym

/-- Alternatives as a JSON array of arrays of symbols. -/
def Production.alternativesJson (alternatives : List (List Sym)) : Json :=
  .arr (alternatives.map fun alternative => .arr (alternative.map Sym.toJson))

/-- The production as a JSON object. -/
def Production.toJson (p : Production) : Json :=
  .obj [("tag", .str p.tag), ("alternatives", alternativesJson p.alternatives)]

namespace Grammar

/-- The grammar without productions. -/
def empty : Grammar := ⟨[]⟩

/-- The tags in order of insertion. -/
def tags (g : Grammar) : List String := g.productions.map Production.tag

/-- The tag has a production. -/
def contains (g : Grammar) (tag : String) : Bool := g.productions.any (·.tag == tag)

/-- The alternatives of a tag. -/
def get? (g : Grammar) (tag : String) : Option (List (List Sym)) :=
  (g.productions.find? (·.tag == tag)).map Production.alternatives

/-- Adds a production at the end, unless its tag has one already. -/
def insert (g : Grammar) (tag : String) (alternatives : List (List Sym)) : Grammar :=
  if g.contains tag then g else ⟨g.productions ++ [⟨tag, alternatives⟩]⟩

/-- The number of productions. -/
def size (g : Grammar) : Nat := g.productions.length

/-- The grammar as a JSON object. -/
def toJson (g : Grammar) : Json :=
  .obj [("rules", .arr (g.productions.map Production.toJson))]

end Grammar

end Parlance
