import Propeller.Assembly.Placement
import Propeller.Compile.Command
import Propeller.Compile.Names
import Propeller.Diagnostic

/-!
# Compile — the draft of an object

An object is compiled in steps that add to a draft.  A step that fails leaves what it has done so
far in the draft, and its failure is reported there (`Compile.attempt`), so that one mistake does
not hide the next.
-/

namespace Propeller

/-- How an object is compiled. -/
structure Config where
  /-- Compile debug statements. -/
  debug : Bool := false
  removeUnusedMethods : Bool := false
  removeUnusedVariables : Bool := false
  warnUnused : Bool := false
  /-- How far the clock may be from what is asked for, if the object says nothing about it. -/
  clockTolerance : Nat := defaultTolerance
  /-- How often code is placed before giving up. -/
  iterationLimit : Nat := 256
  /-- How large the debug data may be. -/
  debugLimit : Nat := defaultDebugLimit
deriving Inhabited

/-- A method that is being compiled. -/
structure MethodDraft where
  method : Method
  location : Location
  /-- The frame of symbols of its body. -/
  scope : ScopeId
  /-- Results, parameters and local variables, as they lie in memory. -/
  frame : List LocalVar
  /-- The local variables that were declared as such. -/
  locals : List (Located LocalVar)
  body : List Command := []
  /-- What the body refers to. -/
  uses : Uses := []
deriving Inhabited

/-- A block of assembly code in a method. -/
structure InlineBlock where
  origin : Int
  lines : List AsmLine
deriving Inhabited

/-- What is known about an object that is being compiled. -/
structure Draft where
  scopes : Scopes
  addresses : Addresses := {}
  report : Report
  links : Links := {}
  constants : List (Located Identifier) := []
  objectVars : List (Located ObjectVar) := []
  /-- The width of what stands at a label. -/
  labelKinds : List (LabelId × DataType) := []
  blocks : List InlineBlock := []
  debug : DebugTable := {}
  /-- How many local variables have been declared in all methods. -/
  localCount : Nat := 0
  /-- What the body that is being compiled refers to. -/
  uses : Uses := []
deriving Inhabited

/-- The frame of the symbols of an object. -/
def objectScope : ScopeId := 1

/-- The draft of an object of which nothing is known. -/
def Draft.initial (unitName : String) : Draft :=
  { scopes := Scopes.initial.push Scopes.root, report := { unitName } }

/-- A step of a compilation.  What it has done stays done when it fails. -/
abbrev Compile := EStateM (Located CompileError) Draft

namespace Compile

/-- Add a warning. -/
def warn (location : Option Location) (message : String) : Compile Unit :=
  modify fun d => { d with report := d.report.warn location message }

/-- Add an error. -/
def fatal (e : Located CompileError) : Compile Unit :=
  modify fun d => { d with report := d.report.fatal (e.map CompileError.message) }

/-- Try a step, and report its failure. -/
def attempt {α : Type} (x : Compile α) : Compile (Option α) :=
  tryCatch (do return some (← x)) fun e => do
    fatal e
    return none

/-- Open a frame of symbols. -/
def pushScope (parent : ScopeId) : Compile ScopeId :=
  modifyGet fun d => (d.scopes.nextScope, { d with scopes := d.scopes.push parent })

/-- Make room for the address of a line. -/
def allocLabel : Compile LabelId :=
  modifyGet fun d => (d.addresses.nextLabel, { d with addresses := d.addresses.alloc })

/-- Bind a name, and report what is odd about it. -/
def define (scope : ScopeId) (name : Located Identifier) (value : Expression) : Compile Unit := do
  let warning := (← get).scopes.warningFor scope name.value
  modify fun d => { d with scopes := d.scopes.addSymbol scope name.value value }
  match warning with
  | none   => return
  | some w => warn (some name.location) w.message

/-- The number of one more local variable. -/
def newLocal : Compile Nat :=
  modifyGet fun d => (d.localCount, { d with localCount := d.localCount + 1 })

/-- What names mean in a frame. -/
def names (scope : ScopeId) : Compile Names := do
  let d ← get
  return { scopes := d.scopes, scope, links := d.links,
           labelKind := fun line => (List.lookup line d.labelKinds).getD .long }

/-- Run a computation that notes what is referred to. -/
def tracked {α : Type} (x : Tracked α) : Compile α := fun d =>
  match x d.uses with
  | .ok a uses    => .ok a { d with uses }
  | .error e uses => .error e { d with uses }

end Compile

end Propeller
