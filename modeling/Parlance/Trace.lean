import Parlance.Cursor
import Parlance.Json
import Parlance.Text.Words

/-
  The trace of a parse: which tokens were read, and under which tag. A trace is independent of
  execution, so that a program can be traced and never run.
-/

namespace Parlance

/-- A token under the tag that read it, or a group of traces under one tag. -/
inductive Trace where
  | leaf (tag : String) (token : Token)
  | branch (tag : String) (children : List Trace)

namespace Trace

/-- The tag at the top. -/
def tag : Trace → String
  | leaf tag _ | branch tag _ => tag

/-- Puts `node` in front and gives the whole a new tag: a branch keeps its children behind it, a
leaf becomes the second child. -/
def prepend : Trace → String → Trace → Trace
  | branch _ children, tag, node => branch tag (node :: children)
  | leaf t token, tag, node => branch tag [node, leaf t token]

mutual

/-- The words alone, as `[add 1 [mul 2 3]]`. -/
def plain : Trace → String
  | leaf _ token => token.value
  | branch _ children => "[" ++ Text.joinWith " " (plainAll children) ++ "]"

/-- The words of each trace of a list. -/
def plainAll : List Trace → List String
  | [] => []
  | t :: rest => plain t :: plainAll rest

end

mutual

/-- The words with their tags, as `value:[fn:add number:1 number:2]`. -/
def typed : Trace → String
  | leaf tag token => tag ++ ":" ++ token.value
  | branch tag children => tag ++ ":[" ++ Text.joinWith " " (typedAll children) ++ "]"

/-- The tagged words of each trace of a list. -/
def typedAll : List Trace → List String
  | [] => []
  | t :: rest => typed t :: typedAll rest

end

mutual

/-- The tokens of the leaves, from left to right. -/
def tokens : Trace → List Token
  | leaf _ token => [token]
  | branch _ children => tokensAll children

/-- The tokens of a list of traces, from left to right. -/
def tokensAll : List Trace → List Token
  | [] => []
  | t :: rest => tokens t ++ tokensAll rest

end

end Trace

/-- A token as a JSON object. -/
def Token.toJson (t : Token) : Json :=
  .obj [("value", .str t.value), ("position", .num t.position)]

namespace Trace

mutual

/-- The trace as a JSON object that says which kind of node it is. -/
def toJson : Trace → Json
  | leaf tag token => .obj [("node", .str "leaf"), ("tag", .str tag), ("token", token.toJson)]
  | branch tag children =>
    .obj [("node", .str "branch"), ("tag", .str tag), ("children", .arr (toJsonAll children))]

/-- The JSON objects of a list of traces. -/
def toJsonAll : List Trace → List Json
  | [] => []
  | t :: rest => toJson t :: toJsonAll rest

end

end Trace

end Parlance
