import Propeller.Assembly.Instruction
import Propeller.DebugTable
import Propeller.Source.Location

/-!
# Source — program trees

The tree of an object as it was written: blocks of constants, variables, child objects and assembly
code, methods, and what selects between them.  A name is kept as it is spelled; what it stands for
is looked up when the tree is compiled.
-/

namespace Propeller

/-! ### Expressions -/

/-- An expression as it was written. -/
inductive Expr
  | literal (location : Location) (value : Literal)
  | text (location : Location) (value : String)
  | name (location : Location) (spelled : Identifier)
  /-- A constant or a method of a child. -/
  | member (location : Location) (object : Located Identifier) (index : Option Expr)
      (member : Located Identifier)
  | index (location : Location) (base : Located Identifier) (index : Expr)
  | unary (location : Location) (op : UnaryOp) (operand : Expr)
  | binary (location : Location) (op : BinaryOp) (left right : Expr)
  | ternary (location : Location) (condition yes no : Expr)
  | addressOf (location : Location) (operand : Expr)
  /-- A call of a method of the object, or of a child. -/
  | call (location : Location) (object : Option (Located Identifier)) (index : Option Expr)
      (method : Located Identifier) (arguments : List Expr)
deriving Inhabited

namespace Expr

/-- Where an expression was written. -/
def location : Expr → Location
  | literal l _     => l
  | text l _        => l
  | name l _        => l
  | member l _ _ _  => l
  | index l _ _     => l
  | unary l _ _     => l
  | binary l _ _ _  => l
  | ternary l _ _ _ => l
  | addressOf l _   => l
  | call l _ _ _ _  => l

/-- A short text that stands for an expression in messages. -/
def describe : Expr → String
  | literal _ value     => value.text
  | text _ value        => "\"" ++ value ++ "\""
  | name _ n            => n.spelling
  | member _ object _ m => object.value.spelling ++ "." ++ m.value.spelling
  | index _ base _      => base.value.spelling ++ "[...]"
  | addressOf _ operand => "@" ++ operand.describe
  | call _ _ _ m _      => m.value.spelling ++ "(...)"
  | unary _ op _        => op.symbol ++ " ..."
  | binary _ op _ _     => "... " ++ op.symbol ++ " ..."
  | ternary _ _ _ _     => "... ? ... : ..."

end Expr

/-! ### Assembly lines -/

/-- An operand of an assembly line. -/
structure SourceOperand where
  kind : OperandKind := .register
  absolute : Bool := false
  value : Expr
  /-- How often a value is repeated. -/
  count : Option Expr := none
  /-- A width of its own. -/
  width : Option DataType := none
  location : Location := {}
deriving Inhabited

/-- A line of assembly code. -/
structure SourceLine where
  label : Option (Located Identifier) := none
  condition : Option (Located Identifier) := none
  mnemonic : Option (Located Identifier) := none
  operands : List SourceOperand := []
  effect : Option (Located Identifier) := none
  location : Location := {}
deriving Inhabited

/-! ### Statements -/

/-- What a debug statement shows. -/
inductive DebugArgument
  | text (shown : String)
  | value (format : DebugFormat) (value : Expr) (name : String)
deriving Inhabited

/-- What a debug argument looks like in a descriptor. -/
def DebugArgument.item : DebugArgument → DebugItem
  | text shown          => .text shown
  | value format _ name => .value format name

/-- What selects a choice of a switch. -/
inductive CaseLabel
  | value (value : Expr)
  | range (low high : Expr)
deriving Inhabited

mutual

/-- A statement. -/
inductive Statement
  | conditional (branches : List Guarded) (otherwise : Option (List Statement))
  /-- A loop with a condition, in front or behind, under which it goes on or ends. -/
  | whileLoop (condition : Expr) (isUntil isPost : Bool) (body : List Statement)
  /-- A loop that is repeated a number of times, or for ever. -/
  | repeatLoop (count : Option Expr) (body : List Statement)
  /-- A loop over the values from one number to another. -/
  | rangeLoop (target first last : Expr) (step : Option Expr) (body : List Statement)
  | forLoop (init : List Statement) (condition : Option Expr) (step body : List Statement)
  | switch (value : Expr) (choices : List Choice) (otherwise : Option (List Statement))
      (breakable : Bool)
  /-- Leave the enclosing loop or switch. -/
  | leave (location : Location)
  /-- Go on with the next round of the enclosing loop. -/
  | next (location : Location)
  | ret (value : Option Expr)
  | abort (value : Option Expr)
  | assign (target : Expr) (op : Option BinaryOp) (value : Expr)
  | expression (location : Location) (value : Expr)
  | assembly (location : Location) (lines : List SourceLine)
  | debug (location : Location) (arguments : List DebugArgument)

/-- Statements under a condition, or under its negation. -/
inductive Guarded
  | mk (condition : Expr) (negate : Bool) (body : List Statement)

/-- Statements under case labels. -/
inductive Choice
  | mk (labels : List CaseLabel) (body : List Statement)

end

instance : Inhabited Statement := ⟨.ret none⟩

/-- The statement hands control back to the caller. -/
def Statement.isReturn : Statement → Bool
  | ret _   => true
  | abort _ => true
  | _       => false

/-- The labels of a choice. -/
def Choice.labels : Choice → List CaseLabel
  | mk labels _ => labels

/-! ### Declarations -/

/-- An item of an enumeration. -/
structure EnumItem where
  name : Located Identifier
  /-- How far the next item is from it. -/
  step : Option Expr := none
deriving Inhabited

/-- A declaration of constants. -/
inductive ConstantDecl
  | assign (name : Located Identifier) (value : Expr)
  | enumeration (start step : Option Expr) (items : List EnumItem)
deriving Inhabited

/-- A declaration of a variable of the object. -/
structure VariableDecl where
  kind : DataType
  name : Located Identifier
  count : Option Expr := none
  location : Location := {}
deriving Inhabited

/-- A declaration of a child. -/
structure ObjectDecl where
  name : Located Identifier
  path : Located String
  count : Option Expr := none
deriving Inhabited

/-- A declaration of a local variable. -/
structure LocalDecl where
  kind : DataType
  name : Located Identifier
  count : Option Expr := none
deriving Inhabited

/-- A declaration of a method. -/
structure MethodDecl where
  isPublic : Bool
  name : Located Identifier
  parameters : List (Located Identifier) := []
  results : List (Located Identifier) := []
  locals : List LocalDecl := []
  body : List Statement := []
  location : Location := {}
deriving Inhabited

/-- A part of an object. -/
inductive Node
  | constants (decls : List ConstantDecl)
  | objectVars (decls : List VariableDecl)
  | objects (decls : List ObjectDecl)
  | data (lines : List SourceLine)
  | method (decl : MethodDecl)
  | define (name : Located Identifier) (tokens : List String)
  /-- Parts that depend on whether a name is defined. -/
  | ifDefined (name : Identifier) (negate : Bool) (yes no : List Node)
deriving Inhabited

/-- An object as it was written. -/
structure ObjectTree where
  name : String
  nodes : List Node
deriving Inhabited

end Propeller
