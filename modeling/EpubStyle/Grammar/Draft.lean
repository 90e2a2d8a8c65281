import EpubStyle.Construct.Nesting

/-!
# Declarations in the making

A declaration is a name, a colon, one or more values with an optional `!important`, and an end. In a
block the end is a semicolon or the closing brace; in a style attribute it is a semicolon or the end
of the text. A `Draft` is a declaration whose colon has been read. `Reading` is the state between
the name and the end, and `Reading.step` gives it one significant token.

A rejected declaration reports one problem. With it goes the number of parentheses and brackets that
are open since the name, because a semicolon inside them does not end the declaration for the reader
that skips the rest.
-/

namespace EpubStyle

/-- Where declarations stand. -/
inductive Setting where
  /-- In a block, up to its closing brace. -/
  | block
  /-- In a style attribute, up to the end of its text. -/
  | attribute
  deriving DecidableEq, Repr, Inhabited

/-- The number of open parentheses and brackets after one more token. -/
def nestingStep (depth : Nat) (t : Token) : Nat :=
  if t.kind == .function || t.isOneOf ['(', '['] then depth + 1
  else if t.isOneOf [')', ']'] then depth - 1
  else depth

/-- A declaration whose colon has been read. -/
structure Draft where
  /-- The name in lower case. -/
  name : String
  location : Location
  /-- The values read so far, latest first. -/
  value : List Construct
  important : Bool
  /-- Parentheses and brackets open since the name. -/
  depth : Nat
  deriving Repr, Inhabited

namespace Draft

/-- The draft of a declaration with the given name. -/
def ofName (name : Token) : Draft where
  name := Text.lowerCase name.text
  location := name.location
  value := []
  important := false
  depth := 0

/-- Something stands behind the colon. -/
def started (d : Draft) : Bool := d.important || !d.value.isEmpty

/-- One more value. -/
def push (d : Draft) (c : Construct) : Draft := { d with value := c :: d.value }

/-- The draft after one more token, as far as parentheses and brackets go. -/
def count (d : Draft) (t : Token) : Draft := { d with depth := nestingStep d.depth t }

/-- The finished declaration. -/
def toDeclaration (d : Draft) : Declaration where
  name := d.name
  value := d.value.reverse
  important := d.important
  location := d.location

end Draft

/-- The state between the name of a declaration and its end. -/
inductive Reading where
  /-- The colon must follow the name. -/
  | named (name : Token)
  /-- A value may follow. -/
  | valued (d : Draft)
  /-- Inside a function or group. -/
  | nested (d : Draft) (n : Nesting)
  deriving Repr, Inhabited

/-- What a token does to a declaration. -/
inductive ReadingStep where
  | pending (r : Reading)
  | complete (d : Declaration)
  /-- The declaration is given up, with `depth` open parentheses and brackets before the token. -/
  | rejected (p : Problem) (depth : Nat)
  deriving Repr, Inhabited

namespace Setting

/-- The token ends a declaration that has a value. -/
def ends (setting : Setting) (t : Token) : Bool :=
  t.isChar ';' || (setting == .block && t.isChar '}')

end Setting

namespace Reading

/-- What becomes of a draft when a value has been given the token `t`. -/
def take (d : Draft) (t : Token) : Building → ReadingStep
  | .complete c => .pending (.valued ((d.push c).count t))
  | .pending n => .pending (.nested (d.count t) n)
  | .rejected => .rejected (.unexpected t) d.depth

/-- Give a draft a token that stands where a value may start. The token before it is `last`. -/
def stepValued (setting : Setting) (last : Token) (d : Draft) (t : Token) : ReadingStep :=
  if !d.started && t.isOneOf [';', '}'] then
    .rejected (.expecting t (.phrase .propertyValue)) 0
  else if setting.ends t then
    if d.value.isEmpty then .rejected (.unexpected last) 0 else .complete d.toDeclaration
  else if t.kind == .important then .pending (.valued { d with important := true })
  else take d t (Nesting.start .propertyValue t)

/-- Give one more significant token. The token before it is `last`. -/
def step (setting : Setting) (last : Token) (r : Reading) (t : Token) : ReadingStep :=
  match r with
  | named name =>
      if t.isChar ':' then .pending (.valued (.ofName name))
      else .rejected (.expecting t (.verbatim "':'")) 0
  | valued d => stepValued setting last d t
  | nested d n => take d t (n.step .propertyValue TokenClass.semicolonOrCloseBrace t)

/-- What the text should still hold where it ends inside a declaration. -/
def expected : Reading → Wording
  | named _ => .verbatim "':'"
  | valued _ | nested _ _ => .either "';'" "'\x7d'"

end Reading

end EpubStyle
