import Parlance.Language.Program

/-
  Reading programs. Each expression reads from a cursor and says where it stopped, also when it
  fails. A type looks one word ahead and takes the reading back. A repetition goes on until the
  input ends or its exit word is read.

  A type whose fallback leads back to itself without reading a word would be read forever. The
  depth to which types are opened is therefore bounded, and a reading that runs past the bound is
  `endless`; the bound used by `Expr.parse` is large enough for every other vocabulary, because
  between two words that are read no type is opened twice.
-/

universe u v

namespace Parlance

/-- What a reading gives, and where the cursor stands after it. -/
inductive Reply (α : Type u) where
  | accepted (value : α) (cursor : Cursor)
  | rejected (error : Error) (cursor : Cursor)
  | endless

namespace Reply

variable {α : Type u} {β : Type v}

/-- Reads on after a success. -/
def andThen (r : Reply α) (f : α → Cursor → Reply β) : Reply β :=
  match r with
  | accepted value cursor => f value cursor
  | rejected error cursor => rejected error cursor
  | endless => endless

/-- Changes the value of a success. -/
def map (f : α → β) (r : Reply α) : Reply β :=
  r.andThen fun value cursor => accepted (f value) cursor

/-- Changes the error of a failure. -/
def mapError (f : Error → Error) : Reply α → Reply α
  | accepted value cursor => accepted value cursor
  | rejected error cursor => rejected (f error) cursor
  | endless => endless

/-- A reading as a result. A vocabulary whose fallbacks lead in a circle is reported as such. -/
def toExcept : Reply α → Except Error α
  | accepted value _ => .ok value
  | rejected error _ => .error error
  | endless => .error (.handler "a fallback leads back to its own type")

end Reply

variable {ι W V : Type}

/-- Reads one word as a literal. -/
def Primitive.parse (p : Primitive V) (c : Cursor) : Reply (Program ι W V) :=
  match c.next p.tag with
  | .error error => .rejected error c
  | .ok (token, c) =>
    match p.convert token.value with
    | .ok value => .accepted (.literal p.tag token value) c
    | .error reason =>
      .rejected (.unreadable token.value token.position p.tag reason) c

/-- Reads expressions one after the other. -/
def parseArgs (parse : Expr ι V → Cursor → Reply (Program ι W V)) :
    List (Expr ι V) → Cursor → Reply (List (Program ι W V))
  | [], c => .accepted [] c
  | e :: rest, c =>
    (parse e c).andThen fun p c => (parseArgs parse rest c).map fun ps => p :: ps

/-- Reads the keyword of a rule and then its arguments. -/
def Rule.parseWith (parse : Expr ι V → Cursor → Reply (Program ι W V)) (rule : Rule ι W V)
    (c : Cursor) : Reply (Token × List (Program ι W V)) :=
  match c.next rule.keyword with
  | .error error => .rejected error c
  | .ok (token, c) =>
    if token.value = rule.keyword then
      (parseArgs parse rule.args c).map fun args => (token, args)
    else .rejected (.mismatch rule.keyword token.value token.position) c

/-- The exit word of a repetition, if it is the next word. -/
def exitWord? (tag : String) (exit : Option String) (c : Cursor) : Option (Token × Cursor) :=
  match exit with
  | none => none
  | some word =>
    match c.next tag with
    | .ok (token, c) => if token.value = word then some (token, c) else none
    | .error _ => none

/-- Reads at most `n` items, until the input ends or the exit word is read. Each item reads a
word at least, so that the number of words that remain is enough for `n`. -/
def parseItems (child : Cursor → Reply (Program ι W V)) (tag : String) (exit : Option String) :
    Nat → Cursor → Reply (List (Program ι W V) × Option Token)
  | 0, c => .accepted ([], none) c
  | n + 1, c =>
    if c.finished then .accepted ([], none) c
    else
      match exitWord? tag exit c with
      | some (token, c) => .accepted ([], some token) c
      | none =>
        (child c).andThen fun p c =>
          (parseItems child tag exit n c).map fun (ps, token) => (p :: ps, token)

/-- Reads an expression, given how types are read. -/
def Expr.parseWith (v : Vocabulary ι W V) (parseType : ι → Cursor → Reply (Program ι W V)) :
    Expr ι V → Cursor → Reply (Program ι W V)
  | .prim p, c => p.parse c
  | .type name, c => parseType name c
  | .rep r child, c =>
    let tag := (Expr.rep r child).tag v.tag
    (parseItems (child.parseWith v parseType) tag r.exit c.remaining c).map
      fun (items, token) => .list tag r items token

/-- A literal that the fallback refused at the very word that the type looked at is a word that
the type did not expect. -/
def blame (tag : String) (token : Token) : Error → Error
  | .unreadable word position expected reason =>
    if position = token.position then .unexpected token.value token.position tag
    else .unreadable word position expected reason
  | error => error

/-- Reads a type, opening types to a depth of at most `fuel`. -/
def parseType (v : Vocabulary ι W V) : Nat → ι → Cursor → Reply (Program ι W V)
  | 0, _, _ => .endless
  | fuel + 1, name, c =>
    match v.table name with
    | none => .rejected (.undefinedType (v.tag name)) c
    | some table =>
      match c.next (v.tag name) with
      | .error error => .rejected error c
      | .ok (token, ahead) =>
        let c := ahead.undo
        match table.lookup token.value with
        | some rule =>
          (rule.parseWith (Expr.parseWith v (parseType v fuel)) c).map fun (keyword, args) =>
            .call (v.tag name) keyword rule args
        | none =>
          match table.fallback with
          | some e =>
            (e.parseWith v (parseType v fuel) c).mapError (blame (v.tag name) token)
          | none => .rejected (.unexpected token.value token.position (v.tag name)) c

/-- A depth that suffices unless fallbacks form a cycle: between two words that are read, each
name is opened at most once. -/
def Vocabulary.depth (v : Vocabulary ι W V) (c : Cursor) : Nat :=
  (v.names.length + 1) * (c.remaining + 1)

/-- Reads an expression from where the cursor stands. -/
def Expr.parse (v : Vocabulary ι W V) (e : Expr ι V) (c : Cursor) : Reply (Program ι W V) :=
  e.parseWith v (parseType v (v.depth c)) c

/-- Reads the keyword of a rule and then its arguments. -/
def Rule.parse (v : Vocabulary ι W V) (rule : Rule ι W V) (c : Cursor) :
    Reply (Token × List (Program ι W V)) :=
  rule.parseWith (Expr.parseWith v (parseType v (v.depth c))) c

end Parlance
