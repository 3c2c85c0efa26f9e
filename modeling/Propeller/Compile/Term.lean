import Propeller.Bytecode.Listing

/-!
# Compile — terms

A term is an expression whose names have been looked up and whose constant parts have been put
together.  `Term.code` gives the instructions that leave its value on the stack.

Only a choice between two terms needs lines of its own.  Code takes the numbers of its lines from a
given one on, and `Term.lines` says how many it takes; so the lines of neighbouring pieces of code
never meet.
-/

namespace Propeller

/-- A variable that can be read and written. -/
structure Variable where
  slot : Slot
  kind : DataType
deriving Inhabited

/-- A term of the language that is compiled. -/
inductive Term
  | constant (value : Expression)
  /-- The value of a variable or of one of its elements. -/
  | read (v : Variable) (index : Option Term)
  /-- The address of a variable or of one of its elements. -/
  | address (v : Variable) (index : Option Term)
  | unary (op : UnaryOp) (operand : Term)
  | binary (op : BinaryOp) (left right : Term)
  | ternary (condition yes no : Term)
  /-- A call; of an array of children, the index says which one. -/
  | call (m : Method) (arguments : List Term) (index : Option Term)
deriving Inhabited

/-- Do something with a variable, whose index is on the stack if there is one. -/
def Variable.access (v : Variable) (indexed : Bool) (o : Op) : Entry :=
  .code (.access { slot := v.slot, kind := v.kind, indexed } o)

/-- An instruction without operands. -/
def Entry.op (o : Op) : Entry := .code (.op o)

/-- A branch to a line. -/
def Entry.branch (b : Branch) (line : LineId) : Entry := .code (.branch b line)

namespace Term

mutual

/-- How many lines the code of a term has. -/
def lines : Term → Nat
  | constant _             => 0
  | read _ index           => linesOpt index
  | address _ index        => linesOpt index
  | unary _ operand        => operand.lines
  | binary _ left right    => left.lines + right.lines
  | ternary c yes no       => 2 + c.lines + yes.lines + no.lines
  | call _ arguments index => linesAll arguments + linesOpt index

/-- How many lines the code of several terms has. -/
def linesAll : List Term → Nat
  | []      => 0
  | t :: ts => t.lines + linesAll ts

/-- How many lines the code of a term that may be missing has. -/
def linesOpt : Option Term → Nat
  | none   => 0
  | some t => t.lines

end

mutual

/-- The code that leaves the value of a term on the stack. -/
def code (base : LineId) : Term → Listing
  | constant value  => [.code (.constant value)]
  | read v index    => codeOpt base index ++ [v.access index.isSome .read]
  | address v index => codeOpt base index ++ [v.access index.isSome .address]
  | unary op operand => operand.code base ++ [.op (.unary op)]
  | binary op left right =>
    left.code base ++ right.code (base + left.lines) ++ [.op (.binary op)]
  | ternary c yes no =>
    let alternative := base
    let stop := base + 1
    let first := base + 2
    let second := first + c.lines
    c.code first ++ [.branch .jz alternative] ++
      yes.code second ++ [.branch .jmp stop, .mark alternative] ++
      no.code (second + yes.lines) ++ [.mark stop]
  | call m arguments index =>
    [.op .anchorPush] ++ codeAll base arguments ++ codeOpt (base + linesAll arguments) index ++
      [.code (.call m index.isSome)]

/-- The code that leaves the values of several terms on the stack, the first one lowest. -/
def codeAll (base : LineId) : List Term → Listing
  | []      => []
  | t :: ts => t.code base ++ codeAll (base + t.lines) ts

/-- The code of a term that may be missing. -/
def codeOpt (base : LineId) : Option Term → Listing
  | none   => []
  | some t => t.code base

end

end Term

end Propeller
