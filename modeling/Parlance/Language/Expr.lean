/-
  Expressions. A primitive reads one word, a type looks at the next word and picks one of its
  rules, and a repetition reads its child again and again. A type is referred to by its name, so
  that expressions can refer to each other in any way; `ι` is the type of these names, and `V`
  that of the values.
-/

namespace Parlance

/-- A terminal: reads one word as a value, or says why it cannot. -/
structure Primitive (V : Type) where
  tag : String
  convert : String → Except String V

/-- The same words, with their values changed. -/
def Primitive.map {V V' : Type} (f : V → V') (p : Primitive V) : Primitive V' :=
  ⟨p.tag, fun word => (p.convert word).map f⟩

/-- How the items of a repetition are executed: one after the other, or all at once. -/
inductive Mode where
  | sequential
  | joined
  deriving DecidableEq, Repr

/-- The letter that marks the tag of a repetition. -/
def Mode.mark : Mode → String
  | sequential => "r"
  | joined => "p"

/-- What a repetition adds to its child: how the items run, the word that ends the list, if one
does, and the value made of the values of the items. -/
structure Repetition (V : Type) where
  mode : Mode
  exit : Option String
  gather : List V → V

/-- An expression over type names `ι`. -/
inductive Expr (ι V : Type) where
  | prim (p : Primitive V)
  | type (name : ι)
  | rep (r : Repetition V) (child : Expr ι V)

namespace Expr

variable {ι V : Type}

/-- The tag of an expression, given the tags of the types. -/
def tag (typeTag : ι → String) : Expr ι V → String
  | prim p => p.tag
  | type name => typeTag name
  | rep r child => r.mode.mark ++ "." ++ child.tag typeTag

/-- The expression with other names for its types, if every one of them has another name. -/
def rename? {κ : Type} (f : ι → Option κ) : Expr ι V → Option (Expr κ V)
  | prim p => some (prim p)
  | type name => (f name).map type
  | rep r child => (child.rename? f).map (rep r)

end Expr

end Parlance
