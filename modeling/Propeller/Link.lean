import Propeller.Bytes
import Propeller.Clock
import Propeller.Expression.Scopes

/-!
# Links

An object may include other objects that are already compiled, its children.  For each instance of
a child the image of the object begins with a link record of two longs: where the image of the
child is, and where its variables are.  The images of the children follow the code of the object,
each at a long, and instances of the same child share one; the variables of the instances follow
those of the object.

Methods and constants of a child are known in the object as `child.name` (`Links.exports`).
-/

namespace Propeller

/-! ### Images -/

/-- A method that other objects may call. -/
structure ExportedMethod where
  name : Identifier
  parameters : Nat
  returns : Nat
  /-- Its place in the method table. -/
  index : Nat
deriving Inhabited

/-- A compiled object. -/
structure ObjectImage where
  bytes : Bytes := []
  /-- How many bytes its variables take, those of its children included. -/
  varSize : Nat := 0
  methods : List ExportedMethod := []
  constants : List (Identifier × Number) := []
  /-- The clock setting that the object asks for. -/
  clock : Option ClockSetting := none
deriving Inhabited

namespace ObjectImage

/-- The first method of a name. -/
def method? (i : ObjectImage) (name : Identifier) : Option ExportedMethod :=
  i.methods.find? (·.name == name)

/-- The first constant of a name. -/
def constant? (i : ObjectImage) (name : Identifier) : Option Number :=
  (i.constants.find? (·.1 == name)).map (·.2)

end ObjectImage

/-- Why an object or a file cannot be included. -/
inductive LinkError
  | notFound (path : String)
  /-- It is there, but it did not compile. -/
  | failed (path : String)
  | emptyArray (name : Identifier)
  | fileNotFound (name : String)
deriving Inhabited

/-- The text of the failure. -/
def LinkError.message : LinkError → String
  | .notFound path     => s!"Object `{path}` not found"
  | .failed path       => s!"Object `{path}` failed to compile"
  | .emptyArray name   =>
      s!"Object array `{name.spelling}` must have at least one instance"
  | .fileNotFound name => s!"File `{name}` not found"

/-- What a compilation can include: objects by path and files by name. -/
structure Library where
  object : String → Except LinkError ObjectImage := fun path => .error (.notFound path)
  file : String → Option Bytes := fun _ => none
deriving Inhabited

namespace Library

/-- Add an object, in place of an earlier one with the same path; without an image it is one that
did not compile. -/
def withObject (l : Library) (path : String) (image : Option ObjectImage) : Library :=
  { l with object := fun p =>
      if p = path then match image with
        | some i => .ok i
        | none   => .error (.failed path)
      else l.object p }

/-- Add a file, in place of an earlier one with the same name. -/
def withFile (l : Library) (name : String) (contents : Bytes) : Library :=
  { l with file := fun n => if n = name then some contents else l.file n }

end Library

/-! ### Children -/

/-- A child with its instances. -/
structure ChildLink where
  /-- What the object calls it. -/
  name : Identifier
  image : ObjectImage
  count : Nat
  /-- The position of its first link record. -/
  index : Nat
deriving Inhabited

/-- The children of an object. -/
structure Links where
  children : List ChildLink := []
deriving Inhabited

namespace Links

/-- How many link records there are. -/
def records (l : Links) : Nat := (l.children.map ChildLink.count).sum

/-- How many bytes the link records take. -/
def headerSize (l : Links) : Nat := l.records * 8

/-- How many bytes the variables of all instances take. -/
def varSize (l : Links) : Nat := (l.children.map fun c => c.image.varSize * c.count).sum

/-- The first child of a name. -/
def get? (l : Links) (name : Identifier) : Option ChildLink := l.children.find? (·.name == name)

/-- Add a child with `count` instances. -/
def add (l : Links) (name : Identifier) (image : ObjectImage) (count : Nat) :
    Except LinkError Links :=
  if count = 0 then .error (.emptyArray name)
  else .ok ⟨l.children ++ [{ name, image, count, index := l.records }]⟩

/-! ### Names of children -/

/-- What a child makes known as `child.name`: its methods, which are numbered from `first` on, and
then its constants. -/
def exportsOf (first : Nat) (c : ChildLink) : List (Identifier × Expression) :=
  let method (m : ExportedMethod) (id : Nat) : Expression :=
    .method { id, name := m.name, parameters := m.parameters, returns := m.returns,
              link := some { object := c.index, index := m.index } }
  ((c.image.methods.zipIdx first).map fun (m, id) => (c.name.qualified m.name, method m id)) ++
    c.image.constants.map fun (name, value) =>
      (c.name.qualified name, .number (Literal.ofNumber value))

/-- What children make known, in order, with their methods numbered from `first` on. -/
def exportsFrom : (first : Nat) → List ChildLink → List (Identifier × Expression)
  | _,     []      => []
  | first, c :: cs => exportsOf first c ++ exportsFrom (first + c.image.methods.length) cs

/-- Everything that the children of an object make known. -/
def exports (l : Links) (first : Nat) : List (Identifier × Expression) :=
  exportsFrom first l.children

/-- How many methods the children of an object make known. -/
def methodCount (l : Links) : Nat := (l.children.map fun c => c.image.methods.length).sum

/-! ### The image with its children -/

/-- The images of children behind `length` bytes, each at a long. -/
def imagesAfter : (length : Nat) → List ChildLink → Bytes
  | _,      []      => []
  | length, c :: cs =>
    let start := align4 length
    zeros (start - length) ++ c.image.bytes ++ imagesAfter (start + c.image.bytes.length) cs

/-- The link records of the instances of one child, whose variables begin at `offset`. -/
def recordsOf (object offset varSize : Nat) : (count : Nat) → Bytes
  | 0         => []
  | count + 1 =>
    littleEndian 4 object ++ littleEndian 4 offset ++
      recordsOf object (offset + varSize) varSize count

/-- The link records of children whose images follow `length` bytes, and whose variables begin at
`offset`. -/
def recordsAfter : (length offset : Nat) → List ChildLink → Bytes
  | _,      _,      []      => []
  | length, offset, c :: cs =>
    let start := align4 length
    recordsOf start offset c.image.varSize c.count ++
      recordsAfter (start + c.image.bytes.length) (offset + c.image.varSize * c.count) cs

/-- The image of an object with its children, and how many bytes all variables take.  The given
bytes begin with room for the link records. -/
def assemble (l : Links) (bytes : Bytes) (ownVarSize : Nat) : Bytes × Nat :=
  let whole := bytes ++ imagesAfter bytes.length l.children
  (recordsAfter bytes.length (align4 ownVarSize) l.children ++ whole.drop l.headerSize,
    align4 ownVarSize + l.varSize)

end Links

end Propeller
