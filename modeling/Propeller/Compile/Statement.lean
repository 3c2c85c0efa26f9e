import Propeller.Compile.Lines

/-!
# Compile — from statements to commands

The expressions of a statement become terms (`Statement.commands`).  A statement that is wrong is
reported and left out, and the statements after it are looked at all the same (`Statement.block`).
-/

namespace Propeller

/-! ### Assembly code in methods -/

/-- The register in which the first long of a frame is found by assembly code. -/
def inlineLocals : Nat := 0x1E0

/-- How many longs of a frame are found in registers. -/
def inlineLocalCount : Nat := 16

/-- The local variables that assembly code finds in registers. -/
def MethodDraft.registers (m : MethodDraft) : List (LocalVar × Nat) :=
  (m.frame.filter fun v =>
      v.kind = .long ∧ v.offset % 4 = 0 ∧ v.offset / 4 < inlineLocalCount).map
    fun v => (v, inlineLocals + v.offset / 4)

namespace Compile

/-- Let assembly code see local variables as registers. -/
def bindRegisters (scope : ScopeId) : List (LocalVar × Nat) → Compile Unit
  | [] => return
  | (v, address) :: rest => do
    modify fun d => { d with scopes := d.scopes.addBuiltin scope v.name (.register address) }
    bindRegisters scope rest

/-- The origin that lines of assembly code begin with, and the lines after it. -/
def splitOrigin (scope : ScopeId) : List SourceLine → Compile (Int × List SourceLine)
  | [] => return (0, [])
  | line :: rest =>
    if line.directive? = some .org ∧ line.label.isNone then
      match line.operands with
      | []     => return (0, rest)
      | o :: _ => do
        let origin ← liftExcept (o.value.constantValue (← get).scopes scope)
        return (origin.toInt, rest)
    else return (0, line :: rest)

/-- The instruction that ends a block of assembly code. -/
def returnLine (location : Location) : Except (Located CompileError) AsmLine := do
  let m ← encodeAt location (Mnemonic.ofName "RET")
  let i ← encodeAt location (Instruction.make none m [] .none)
  return { content := .instruction i, location }

/-- The command for a block of assembly code. -/
def inlineAssembly (library : Library) (m : MethodDraft) (location : Location)
    (lines : List SourceLine) : Compile Command := do
  let scope ← pushScope m.scope
  let registers := m.registers
  modify fun d => { d with uses := registers.foldl (fun u r => u.mark (.localVar r.1.id)) d.uses }
  bindRegisters scope registers
  let (origin, lines) ← splitOrigin scope lines
  let converted ← convert library scope lines
  let last ← liftExcept (returnLine location)
  let block : InlineBlock := { origin, lines := converted ++ [last] }
  modifyGet fun d =>
    (.assembly (origin % 2 ^ 32).toNat d.blocks.length, { d with blocks := d.blocks ++ [block] })

end Compile

/-! ### Statements -/

/-- What a method is compiled with. -/
structure MethodContext where
  config : Config
  library : Library
  method : MethodDraft

namespace MethodContext

/-- The term of an expression. -/
def term (m : MethodContext) (e : Expr) : Compile Term := do
  Compile.tracked (e.term (← Compile.names m.method.scope))

/-- The terms of several expressions. -/
def terms (m : MethodContext) (es : List Expr) : Compile (List Term) := do
  Compile.tracked (Expr.termAll (← Compile.names m.method.scope) es)

/-- The term of an expression that may be missing. -/
def termOpt (m : MethodContext) (e : Option Expr) : Compile (Option Term) := do
  Compile.tracked (Expr.termOpt (← Compile.names m.method.scope) e)

/-- What an assignment writes to, and the index of one of its elements. -/
def target (m : MethodContext) (e : Expr) : Compile (Variable × Option Expr) := do
  Compile.tracked (e.target (← Compile.names m.method.scope))

/-- The label of a choice. -/
def label (m : MethodContext) : CaseLabel → Compile Label
  | .value e => do return .value (← m.term e)
  | .range low high => do
    let l ← m.term low
    let h ← m.term high
    return .range l h

/-- The labels of a choice. -/
def labelAll (m : MethodContext) : List CaseLabel → Compile (List Label)
  | []      => return []
  | l :: ls => do
    let first ← m.label l
    let rest ← m.labelAll ls
    return first :: rest

/-- The labels of all choices. -/
def labels (m : MethodContext) : List Choice → Compile (List (List Label))
  | []      => return []
  | c :: cs => do
    let first ← m.labelAll c.labels
    let rest ← m.labels cs
    return first :: rest

/-- The command for an assignment. -/
def assign (m : MethodContext) (target : Expr) (op : Option BinaryOp) (value : Expr) :
    Compile Command := do
  let (v, index) ← m.target target
  match op with
  | none => do
    let value ← m.term value
    let index ← m.termOpt index
    return .assign v index none value
  | some op => do
    let index ← m.termOpt index
    let value ← m.term value
    return .assign v index (some op) value

/-- The command for a call whose results are dropped. -/
def invoke (m : MethodContext) (location : Location) (object : Option (Located Identifier))
    (index : Option Expr) (method : Located Identifier) (arguments : List Expr) :
    Compile Command := do
  let names ← Compile.names m.method.scope
  let callee ← Compile.tracked (names.callee object method arguments.length false location)
  let arguments ← m.terms arguments
  let index ← m.termOpt index
  Compile.tracked (Tracked.use (.method callee.id))
  return .invoke callee arguments index

/-- The command for an expression that stands alone.  A name is called only if it is itself the name
of a method. -/
def expression (m : MethodContext) (location : Location) : Expr → Compile Command
  | .call _ object index method arguments => m.invoke location object index method arguments
  | .name l x => do
    match (← get).scopes.symbol? m.method.scope x with
    | some (.method _) => m.invoke location none none ⟨x, l⟩ []
    | _                => return .discard (← m.term (.name l x))
  | e => do return .discard (← m.term e)

/-- The values that a debug statement shows. -/
def debugValues : List DebugArgument → List Expr
  | []                       => []
  | .text _ :: rest          => debugValues rest
  | .value _ value _ :: rest => value :: debugValues rest

/-- The commands for a debug statement: none unless debugging is asked for. -/
def debug (m : MethodContext) (location : Location) (arguments : List DebugArgument) :
    Compile (List Command) := do
  if !m.config.debug then return []
  let values ← m.terms (debugValues arguments)
  match (← get).debug.add (arguments.map DebugArgument.item) with
  | .error e => throw ⟨.debug e, location⟩
  | .ok (record, table) => do
    modify fun d => { d with debug := table }
    return [.debug values record]

end MethodContext

/-- Which exits there are around a statement. -/
structure Exits where
  leave : Bool := false
  next : Bool := false
deriving DecidableEq, Inhabited

/-- The exits in a loop. -/
def Exits.inLoop : Exits := { leave := true, next := true }

namespace Statement

mutual

/-- The commands for a statement. -/
def commands (m : MethodContext) (exits : Exits) : Statement → Compile (List Command)
  | .conditional branches otherwise =>
    guarded m exits otherwise.isSome (blockOpt m exits otherwise) branches
  | .whileLoop condition isUntil true body => do
    let body ← block m .inLoop body
    return [.postLoop isUntil (← m.term condition) body]
  | .whileLoop condition isUntil false body => do
    let c ← m.term condition
    return [.preLoop isUntil c (← block m .inLoop body)]
  | .repeatLoop none body => do return [.forever (← block m .inLoop body)]
  | .repeatLoop (some count) body => do
    let n ← m.term count
    return [.countLoop n (← block m .inLoop body)]
  | .rangeLoop target first last step body => do
    let first ← m.term first
    let last ← m.term last
    let step ← m.termOpt step
    let (v, index) ← m.target target
    let index ← m.termOpt index
    let body ← block m .inLoop body
    return [.rangeLoop v index first last (step.getD (.constant (.int 1))) body]
  | .forLoop init condition step body => do
    let init ← block m exits init
    let c ← m.termOpt condition
    let body ← block m .inLoop body
    let step ← block m .inLoop step
    return [.forLoop init c step body]
  | .switch value choices otherwise breakable => do
    let inner := { exits with leave := exits.leave || breakable }
    let value ← m.term value
    let labels ← m.labels choices
    let otherwise ← blockOpt m inner otherwise
    let bodies ← blocks m inner choices
    return [.switch breakable value labels bodies otherwise]
  | .leave location =>
    if exits.leave then return [.exit .leave] else throw ⟨.misplacedLeave, location⟩
  | .next location =>
    if exits.next then return [.exit .next] else throw ⟨.misplacedNext, location⟩
  | .ret value => do return [.ret (← m.termOpt value)]
  | .abort value => do return [.abort (← m.termOpt value)]
  | .assign target op value => do return [← m.assign target op value]
  | .expression location e => do return [← m.expression location e]
  | .assembly location lines => do
    return [← Compile.inlineAssembly m.library m.method location lines]
  | .debug location arguments => m.debug location arguments

/-- The commands for a chain of conditions, with what is done if none of them holds. -/
def guarded (m : MethodContext) (exits : Exits) (hasElse : Bool)
    (otherwise : Compile (List Command)) : List Guarded → Compile (List Command)
  | [] => otherwise
  | .mk condition negate body :: rest => do
    let c ← m.term condition
    let yes ← block m exits body
    if rest.isEmpty && !hasElse then return [.ifThen negate c yes]
    else return [.ifElse negate c yes (← guarded m exits hasElse otherwise rest)]

/-- The commands for statements one after the other. -/
def block (m : MethodContext) (exits : Exits) : List Statement → Compile (List Command)
  | []      => return []
  | s :: ss => do
    let first ← Compile.attempt (s.commands m exits)
    let rest ← block m exits ss
    return first.getD [] ++ rest

/-- The commands for statements that may be missing. -/
def blockOpt (m : MethodContext) (exits : Exits) : Option (List Statement) → Compile (List Command)
  | none    => return []
  | some ss => block m exits ss

/-- The commands for the statements of all choices. -/
def blocks (m : MethodContext) (exits : Exits) : List Choice → Compile (List (List Command))
  | []              => return []
  | .mk _ b :: rest => do
    let first ← block m exits b
    let rest ← blocks m exits rest
    return first :: rest

end

/-- The commands for the body of a method, which ends with a return in any case. -/
def body (m : MethodContext) (ss : List Statement) : Compile (List Command) := do
  let commands ← block m {} ss
  if (ss.getLast?.map isReturn).getD false then return commands
  else return commands ++ [.ret none]

end Statement

end Propeller
