import Parlance.Grammar
import Parlance.Language.Vocabulary

/-
  The published grammar of an expression: a walk from it through everything that it refers to,
  the arguments of the rules first and in order, then the fallback. An expression registers its
  own alternatives before it visits others and returns at once when its tag is registered, so
  that no type is opened twice on one path and as many openings as there are names suffice.
-/

namespace Parlance

variable {ι W V : Type}

/-- The keyword and the arguments of a rule, as an alternative. -/
def Rule.alternative (v : Vocabulary ι W V) (rule : Rule ι W V) : List Sym :=
  .exact rule.keyword :: rule.args.map fun e => .type (e.tag v.tag)

/-- One alternative per rule, then the fallback. -/
def Table.alternatives (v : Vocabulary ι W V) (t : Table ι W V) : List (List Sym) :=
  t.rules.map (Rule.alternative v) ++ t.fallback.toList.map fun e => [.type (e.tag v.tag)]

/-- Items up to the end of the input, or up to the exit word. -/
def Repetition.alternatives (r : Repetition V) (child : String) : List (List Sym) :=
  [.many child, .endOfInput] :: r.exit.toList.map fun word => [.many child, .exact word]

/-- Registers an expression and what it refers to, given how types are registered. -/
def Expr.visitWith (v : Vocabulary ι W V) (visitType : ι → Grammar → Grammar) :
    Expr ι V → Grammar → Grammar
  | .prim _, g => g
  | .type name, g => visitType name g
  | .rep r child, g =>
    let tag := (Expr.rep r child).tag v.tag
    if g.contains tag then g
    else child.visitWith v visitType (g.insert tag (r.alternatives (child.tag v.tag)))

/-- Registers a type and what it refers to, opening types to a depth of at most `fuel`. -/
def visitType (v : Vocabulary ι W V) : Nat → ι → Grammar → Grammar
  | 0, _, g => g
  | fuel + 1, name, g =>
    if g.contains (v.tag name) then g
    else
      match v.table name with
      | none => g.insert (v.tag name) []
      | some table =>
        let visit (g : Grammar) (e : Expr ι V) := e.visitWith v (visitType v fuel) g
        let args := table.rules.flatMap Rule.args ++ table.fallback.toList
        args.foldl visit (g.insert (v.tag name) (table.alternatives v))

/-- Adds the productions of an expression and of everything it refers to. -/
def Expr.grammar (v : Vocabulary ι W V) (e : Expr ι V) (g : Grammar) : Grammar :=
  e.visitWith v (visitType v (v.names.length + 1)) g

end Parlance
