import Propeller.Assembly.Error
import Propeller.DataType

/-!
# Assembly — directives
-/

namespace Propeller

/-- What an assembly line can ask for that is not an instruction. -/
inductive Directive
  /-- Data of the given width. -/
  | data (kind : DataType)
  | file | res | alignw | alignl | org | orgh | orgf | fit
deriving DecidableEq, Inhabited

namespace Directive

/-- The names of the directives. -/
def names : List (String × Directive) :=
  [ ("BYTE", .data .byte),
    ("WORD", .data .word),
    ("LONG", .data .long),
    ("FILE", .file),
    ("RES", .res),
    ("ALIGNW", .alignw),
    ("ALIGNL", .alignl),
    ("ORG", .org),
    ("ORGH", .orgh),
    ("ORGF", .orgf),
    ("FIT", .fit) ]

/-- Look a directive up by name, if there is one. -/
def find? (name : String) : Option Directive :=
  (names.find? fun row => sameName row.1 name).map (·.2)

/-- Look a directive up by name. -/
def ofName (name : String) : Except EncodeError Directive :=
  match find? name with
  | some d => .ok d
  | none   => .error (.unknownMnemonic name)

end Directive

end Propeller
