import Propeller.Compile.Declarations
import Propeller.Compile.Image
import Propeller.Compile.Statement

/-!
# Compile

`compile` takes the tree of an object to its image.  There is an image exactly when nothing that was
reported is an error; everything that can be found wrong is reported at once.
-/

namespace Propeller

/-- What compiling an object gives. -/
structure Compilation where
  image : Option ObjectImage
  /-- The debug data, if debug statements were compiled. -/
  debug : Option Bytes
  report : Report
deriving Inhabited

/-- The object was compiled. -/
def Compilation.succeeded (c : Compilation) : Bool := c.image.isSome && !c.report.hasErrors

namespace Compile

/-- Compile the body of a method. -/
def methodBody (config : Config) (library : Library) (m : MethodDraft) (decl : MethodDecl) :
    Compile MethodDraft := do
  modify fun d => { d with uses := [] }
  let body ← Statement.body { config, library, method := m } decl.body
  return { m with body, uses := (← get).uses }

/-- Compile the bodies of methods. -/
def methodBodies (config : Config) (library : Library) :
    List (MethodDraft × MethodDecl) → Compile (List MethodDraft)
  | [] => return []
  | (m, decl) :: rest => do
    let first ← methodBody config library m decl
    let rest ← methodBodies config library rest
    return first :: rest

/-- Compile the parts of an object. -/
def parts (config : Config) (library : Library) (nodes : List Node) : Compile Parts := do
  let nodes ← Node.selectAll nodes
  attemptAll addConstants (nodes.flatMap Node.constantDecls)
  let clock ← attempt (clock config)
  attemptAll (addChild library) (nodes.flatMap Node.objectDecls)
  addExports
  let methods ← addDeclarations (← get).links.methodCount nodes
  let dat ← convert library objectScope (nodes.flatMap Node.dataLines)
  let methods ← methodBodies config library (methods.zip (nodes.flatMap Node.methodDecls))
  return { dat, methods, clock := clock.join }

/-- Warn of what is never used. -/
def warnUnused (config : Config) (p : Parts) (removed : List Nat) : Compile Unit :=
  if config.warnUnused then
    modify fun d =>
      let warnings := unusedWarnings p.methods removed d.objectVars
      { d with report :=
          warnings.foldl (fun r w => r.warn (some w.location) w.value) d.report }
  else return

/-- Compile an object, with everything that is wrong in the report. -/
def object (config : Config) (library : Library) (nodes : List Node) :
    Compile (Option ObjectImage) := do
  let p ← parts config library nodes
  let removed := if config.removeUnusedMethods then unusedMethods p.methods else []
  warnUnused config p removed
  let d ← get
  if d.report.hasErrors then return none
  match buildImage config d p removed with
  | .ok image => return some image
  | .error problems =>
    set { d with report := d.report.extend problems }
    return none

/-- The debug data of an object. -/
def debugData (config : Config) : Compile (Option Bytes) := do
  if !config.debug then return none
  let d ← get
  match d.debug.serialize config.debugLimit with
  | .ok bytes => return some bytes
  | .error e  =>
    set { d with report := d.report.push (.error none e.message) }
    return none

end Compile

/-- Compile an object. -/
def compile (config : Config) (library : Library) (tree : ObjectTree) : Compilation :=
  let steps : Compile (Option ObjectImage × Option Bytes) := do
    let image ← Compile.attempt (Compile.object config library tree.nodes)
    let debug ← Compile.debugData config
    return (image.join, debug)
  match steps (Draft.initial tree.name) with
  | .ok (image, debug) d =>
    { image := if d.report.hasErrors then none else image, debug, report := d.report }
  | .error e d =>
    { image := none, debug := none, report := d.report.fatal (e.map CompileError.message) }

end Propeller
