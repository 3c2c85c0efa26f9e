import Propeller.Compile.Draft
import Propeller.Compile.Unused

/-!
# Compile — the image of an object

The image is the link records, the method table with a zero at its end, the assembly code, the code
of the methods in the order of the table, and the images of the children.  Public methods come first
in the table, so that their places do not depend on private ones.
-/

namespace Propeller

/-- What of an object goes into its image, apart from its names. -/
structure Parts where
  dat : List AsmLine
  methods : List MethodDraft
  clock : Option ClockSetting

/-- The methods of the method table. -/
def tableOrder (methods : List MethodDraft) (removed : List Nat) : List MethodDraft :=
  let kept := methods.filter fun m => !removed.contains m.method.id
  kept.filter (·.method.isPublic) ++ kept.filter (!·.method.isPublic)

/-- The offsets of variables from an offset on, each as its width allows, and the offset after
them. -/
def variableOffsets : (offset : Nat) → List ObjectVar → List (Nat × Nat) × Nat
  | offset, []      => ([], offset)
  | offset, v :: vs =>
    let start := alignTo v.kind.size offset
    let (rest, stop) := variableOffsets (start + v.size) vs
    ((v.id, start) :: rest, stop)

/-- Assemble the blocks of assembly code of methods one after the other. -/
def assembleBlocks (scopes : Scopes) (limit : Nat) :
    List InlineBlock → Addresses → Addresses × List Bytes × List Diagnostic
  | [], addresses => (addresses, [], [])
  | b :: bs, addresses =>
    let a := assemble scopes (.cog b.origin) b.lines limit addresses
    let (addresses, codes, problems) := assembleBlocks scopes limit bs a.addresses
    (addresses, a.bytes :: codes, a.problems ++ problems)

/-- The entry of a method in the method table. -/
def methodEntry (m : Method) (layout : MethodLayout) : Bytes :=
  littleEndian 4 (2 ^ 31 + m.parameters % 16 * 2 ^ 24 + m.returns % 16 * 2 ^ 20 +
    (layout.address % 2 ^ 20).toNat)

/-- The place of a method in its method table. -/
def tableIndex (table : List MethodDraft) (m : Method) : Nat :=
  match m.link with
  | some link => link.index
  | none      => (table.findIdx? fun t => t.method.id == m.id).getD 0

/-- The methods that other objects may call. -/
def exportedMethods (table : List MethodDraft) : List ExportedMethod :=
  (table.filter (·.method.isPublic)).map fun m =>
    { name := m.method.name, parameters := m.method.parameters, returns := m.method.returns,
      index := tableIndex table m.method }

/-- The constants that other objects may use: those that have a value. -/
def exportedConstants (env : Environment) (names : List (Located Identifier)) :
    List (Identifier × Number) :=
  names.filterMap fun name => do
    let e ← env.scopes.symbol? objectScope name.value
    let n ← (e.eval env).toOption
    return (name.value, n)

/-- The code of the methods, and what is wrong with it. -/
def emitMethods (r : Resolution) :
    List (MethodDraft × MethodLayout) → Bytes × List Diagnostic
  | [] => ([], [])
  | (m, layout) :: rest =>
    let (bytes, problem) := layout.emit r (Command.body m.body)
    let (later, problems) := emitMethods r rest
    (bytes ++ later, (problem.toList.map fun e => .error (some m.location) e.message) ++ problems)

/-- The image of an object, or what is wrong with it. -/
def buildImage (config : Config) (d : Draft) (parts : Parts) (removed : List Nat) :
    Except (List Diagnostic) ObjectImage := do
  let table := tableOrder parts.methods removed
  let kept := (d.objectVars.map Located.value).filter fun v =>
    !config.removeUnusedVariables || isUsedVar parts.methods v
  let (offsets, ownVarSize) := variableOffsets 0 kept
  let header := d.links.headerSize
  let datStart := header + (table.length + 1) * 4
  let dat := assemble d.scopes (.hub datStart) parts.dat config.iterationLimit d.addresses
  let (addresses, blocks, problems) :=
    assembleBlocks d.scopes config.iterationLimit d.blocks dat.addresses
  if !(dat.problems ++ problems).isEmpty then throw (dat.problems ++ problems)
  let r : Resolution :=
    { environment := ⟨d.scopes, addresses⟩
      variableOffset := fun id => List.lookup id offsets
      methodIndex := tableIndex table
      block := fun n => blocks.getD n [] }
  let layouts ← (layoutMethods r (datStart + dat.bytes.length) config.iterationLimit
    (table.map fun m => Command.body m.body)).mapError fun e =>
      [.error (some ((table.head?.map MethodDraft.location).getD {})) e.message]
  let placed := table.zip layouts
  let (code, problems) := emitMethods r placed
  if !problems.isEmpty then throw problems
  let entries := placed.flatMap fun (m, layout) => methodEntry m.method layout
  let own := zeros header ++ entries ++ zeros 4 ++ dat.bytes ++ code
  let (bytes, varSize) := d.links.assemble own (align4 ownVarSize)
  return { bytes, varSize, methods := exportedMethods table,
           constants := exportedConstants r.environment d.constants, clock := parts.clock }

end Propeller
