import Propeller.Compile.Draft

/-!
# Compile — lines of assembly code

A label that begins with a point belongs to the section of the last label that does not, or to the
section in front of the first one.  Each section has a frame of symbols of its own.  All labels are
bound before any operand is looked at, so that a line may name a label that comes later.
-/

namespace Propeller

namespace SourceLine

/-- The directive that a line holds. -/
def directive? (line : SourceLine) : Option Directive :=
  line.mnemonic.bind fun m => Directive.find? m.value.spelling

/-- The width of what stands at the label of a line. -/
def kind (line : SourceLine) : DataType :=
  match line.directive? with
  | some (.data kind) => kind
  | _                 => .long

end SourceLine

/-- Fail at a place because of what cannot be encoded. -/
def encodeAt {α : Type} (location : Location) (x : Except EncodeError α) :
    Except (Located CompileError) α :=
  x.mapError fun e => ⟨.encode e, location⟩

namespace SourceOperand

/-- A value of a data directive. -/
def dataValue (s : Scopes) (scope : ScopeId) (o : SourceOperand) :
    Except (Located CompileError) (Located DataValue) := do
  let count ← o.count.mapM (·.lower s scope)
  let value ← o.value.lower s scope
  return ⟨{ value, count, width := o.width }, o.location⟩

/-- An operand of an instruction. -/
def operand (s : Scopes) (scope : ScopeId) (o : SourceOperand) :
    Except (Located CompileError) Operand := do
  return { kind := o.kind, absolute := o.absolute, value := ← o.value.lower s scope }

end SourceOperand

namespace SourceLine

/-- What a line with a directive holds. -/
def directiveContent (library : Library) (s : Scopes) (scope : ScopeId) (line : SourceLine)
    (directive : Directive) : Except (Located CompileError) Content := do
  let first := line.operands.head?.mapM fun o => o.value.lower s scope
  match directive with
  | .data kind => return .data { kind, values := ← line.operands.mapM (·.dataValue s scope) }
  | .file      =>
    match line.operands.head?.map SourceOperand.value with
    | some (.text _ name) =>
      match library.file name with
      | some contents => return .file contents
      | none          => .error ⟨.link (.fileNotFound name), line.location⟩
    | _ => .error ⟨.expectedFileName, line.location⟩
  | .res       => return .res ((← first).getD (.int 1))
  | .alignw    => return .align 2
  | .alignl    => return .align 4
  | .org       => return .org (← first)
  | .orgh      => return .orgh (← first)
  | .fit       => return .fit (← first)
  | .orgf      =>
    match ← first with
    | some target => return .orgf target
    | none        => .error ⟨.encode (.invalidArguments "ORGF" "address"), line.location⟩

/-- What a line with an instruction holds. -/
def instructionContent (s : Scopes) (scope : ScopeId) (line : SourceLine)
    (mnemonic : Located Identifier) : Except (Located CompileError) Content := do
  let m ← encodeAt mnemonic.location (Mnemonic.ofName mnemonic.value.spelling)
  let condition ← line.condition.mapM fun c =>
    encodeAt c.location (Condition.ofName c.value.spelling)
  let effects ← line.effect.mapM fun e => encodeAt e.location (Effects.ofName e.value.spelling)
  let operands ← line.operands.mapM (·.operand s scope)
  let i ← encodeAt line.location (Instruction.make condition m operands (effects.getD .none))
  return .instruction i

/-- What a line holds. -/
def content (library : Library) (s : Scopes) (scope : ScopeId) (line : SourceLine) :
    Except (Located CompileError) Content :=
  match line.mnemonic with
  | none => .ok .empty
  | some mnemonic =>
    match line.directive? with
    | none => line.instructionContent s scope mnemonic
    | some directive =>
      if line.condition.isSome ∨ line.effect.isSome then
        .error ⟨.directiveModifiers mnemonic.value.spelling, line.location⟩
      else line.directiveContent library s scope directive

end SourceLine

namespace Compile

/-- Bind the labels of lines: each line with its label and the frame that its operands see.
`current` is the frame of the section that a line is in. -/
def bindLabels (scope : ScopeId) :
    (current : ScopeId) → List SourceLine → Compile (List (SourceLine × Option LabelId × ScopeId))
  | _, [] => return []
  | current, line :: rest => do
    let (label, current) ← match line.label with
      | none => pure (none, current)
      | some name => do
        let label ← allocLabel
        let (home, current) ←
          if name.value.isLocalLabel then pure (current, current)
          else do
            let fresh ← pushScope scope
            pure (scope, fresh)
        define home name (.label label)
        modify fun d => { d with labelKinds := (label, line.kind) :: d.labelKinds }
        pure (some label, current)
    let rest ← bindLabels scope current rest
    return (line, label, current) :: rest

/-- The lines whose labels have been bound; a line that is wrong is reported and left out. -/
def convertLines (library : Library) :
    List (SourceLine × Option LabelId × ScopeId) → Compile (List AsmLine)
  | [] => return []
  | (line, label, scope) :: rest => do
    let converted ← attempt do
      let content ← liftExcept (line.content library (← get).scopes scope)
      return { label, content, location := line.location : AsmLine }
    let rest ← convertLines library rest
    return converted.toList ++ rest

/-- Convert lines of assembly code whose labels belong to a frame. -/
def convert (library : Library) (scope : ScopeId) (lines : List SourceLine) :
    Compile (List AsmLine) := do
  let first ← pushScope scope
  let bound ← bindLabels scope first lines
  convertLines library bound

end Compile

end Propeller
