import Propeller.Source.Tree

/-!
# The demonstration object

A method that toggles a pin for ever, and the same loop in assembly code.
-/

namespace Propeller.Demo

/-- Where everything in the object was written. -/
def place : Location := .point "demo.spin2" 1 1

/-- A name of the object. -/
def spelled (name : String) : Located Identifier := ⟨⟨name⟩, place⟩

/-- The expression that is a name. -/
def name (name : String) : Expr := .name place ⟨name⟩

/-- The expression that is a number. -/
def number (v : Int64) : Expr := .literal place (.ofInt v)

/-- The declaration of a constant. -/
def constant (name : String) (v : Int64) : ConstantDecl := .assign (spelled name) (number v)

/-- The bit of the pin. -/
def mask : Expr := .binary place (.integer .shl) (number 1) (name "PIN")

/-- Set the direction of the pin, then toggle it for ever. -/
def blink : MethodDecl :=
  { isPublic := true
    name := spelled "main"
    location := place
    body :=
      [ .assign (name "DIRA") (some (.integer .or)) mask,
        .repeatLoop none [.assign (name "OUTA") (some (.integer .xor)) mask] ] }

/-- A line of assembly code. -/
def line (label : Option String) (mnemonic : String) (operands : List (OperandKind × Expr)) :
    SourceLine :=
  { label := label.map spelled
    mnemonic := some (spelled mnemonic)
    operands := operands.map fun (kind, value) => { kind, value, location := place }
    location := place }

/-- The loop in assembly code. -/
def program : List SourceLine :=
  [ line none "org" [],
    line (some "entry") "drvh" [(.immediate, name "PIN")],
    line (some ".loop") "drvnot" [(.immediate, name "PIN")],
    line none "waitx" [(.immediate, number 0x1FF)],
    line none "jmp" [(.immediate, name ".loop")],
    line (some "period") "long" [(.register, name "CLKFREQ_")] ]

/-- The object, with a crystal of `input` hertz and a clock of `frequency` hertz. -/
def object (input frequency : Int64) : ObjectTree :=
  { name := "demo"
    nodes :=
      [ .constants
          [constant "_XTLFREQ" input, constant "_CLKFREQ" frequency, constant "PIN" 56],
        .method blink,
        .data program ] }

end Propeller.Demo
