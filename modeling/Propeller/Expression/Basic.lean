import Propeller.DataType
import Propeller.Number.Literal
import Propeller.Number.Operator

/-!
# Expressions

An expression is a tree that is evaluated when its value is needed: a symbol is looked up then, so
that it may be defined later than it is used, and the address of a line is known once lines have
been placed.

What a program declares — variables of the object, local variables of a method, methods — is named
in an expression by its declaration.  What is decided about a declaration afterwards, such as the
offset of a variable or the place of a method in the method table, is kept apart under its number.
-/

namespace Propeller

/-- The number of a frame of symbols. -/
abbrev ScopeId := Nat

/-- The number of a line whose address can be referred to. -/
abbrev LabelId := Nat

/-- A variable of the object. -/
structure ObjectVar where
  id : Nat
  name : Identifier
  kind : DataType
  count : Nat := 1
deriving Inhabited

/-- How many bytes a variable takes. -/
def ObjectVar.size (v : ObjectVar) : Nat := v.kind.size * v.count

/-- A parameter, a result or a local variable of a method. -/
structure LocalVar where
  id : Nat
  name : Identifier
  kind : DataType
  count : Nat := 1
  /-- The offset in the frame of the method. -/
  offset : Nat
deriving Inhabited

/-- Where a method of a child is found. -/
structure MethodLink where
  /-- The position of the child's first link record. -/
  object : Nat
  /-- The place in the method table of the child. -/
  index : Nat
deriving DecidableEq, Inhabited

/-- A method of the object or of one of its children. -/
structure Method where
  id : Nat
  name : Identifier
  parameters : Nat
  returns : Nat
  isPublic : Bool := true
  /-- A method of a child has a link. -/
  link : Option MethodLink := none
deriving Inhabited

/-- An expression. -/
inductive Expression
  | number (literal : Literal)
  | text (value : String)
  | unary (op : UnaryOp) (operand : Expression)
  | binary (op : BinaryOp) (left right : Expression)
  | ternary (condition yes no : Expression)
  /-- What a name stands for in a frame. -/
  | symbol (scope : ScopeId) (name : Identifier)
  | objectVar (v : ObjectVar)
  | localVar (v : LocalVar)
  | method (m : Method)
  /-- A register of the cog. -/
  | register (address : Nat)
  /-- The logical address of a line. -/
  | label (line : LabelId)
  /-- The address of a line in the image. -/
  | hubLabel (line : LabelId)
deriving Inhabited

namespace Expression

/-- The decimal literal of an integer. -/
def int (v : Int64) : Expression := number (Literal.ofInt v)

/-- The text of a text expression. -/
def text? : Expression → Option String
  | text value => some value
  | _          => none

end Expression

end Propeller
