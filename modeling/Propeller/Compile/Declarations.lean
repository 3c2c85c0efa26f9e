import Propeller.Compile.Draft

/-!
# Compile — declarations

What is selected of an object, its constants, its clock, its children, its variables and its methods
without their bodies, in this order.
-/

namespace Propeller

/-! ### Selection -/

namespace Node

mutual

/-- The parts that a part of an object amounts to.  A definition is made on the way. -/
def select : Node → Compile (List Node)
  | .define name tokens => do
    if (← get).scopes.isDefined objectScope name.value then
      Compile.warn (some name.location) s!"`{name.value.spelling}` is redefined"
    modify fun d => { d with scopes := d.scopes.addDefinition objectScope name.value tokens }
    return []
  | .ifDefined name negate yes no => do
    if (← get).scopes.isDefined objectScope name != negate then selectAll yes else selectAll no
  | node => return [node]

/-- The parts that several parts of an object amount to. -/
def selectAll : List Node → Compile (List Node)
  | []            => return []
  | node :: nodes => do
    let first ← node.select
    let rest ← selectAll nodes
    return first ++ rest

end

/-- The declarations of constants in a part. -/
def constantDecls : Node → List ConstantDecl
  | .constants decls => decls
  | _                => []

/-- The declarations of children in a part. -/
def objectDecls : Node → List ObjectDecl
  | .objects decls => decls
  | _              => []

/-- The lines of assembly code in a part. -/
def dataLines : Node → List SourceLine
  | .data lines => lines
  | _           => []

/-- The declaration of a method in a part. -/
def methodDecls : Node → List MethodDecl
  | .method decl => [decl]
  | _            => []

end Node

namespace Compile

/-- Try a step for each element, and report the failures. -/
def attemptAll {α : Type} (f : α → Compile Unit) : List α → Compile Unit
  | []      => return
  | x :: xs => do
    let _ ← attempt (f x)
    attemptAll f xs

/-! ### Constants -/

/-- The expression that is evaluated for one written in a declaration. -/
def lower (e : Expr) : Compile Expression := do
  liftExcept (e.lower (← get).scopes objectScope)

/-- The expression for one that may be missing. -/
def lowerOr (default : Int64) : Option Expr → Compile Expression
  | none   => return .int default
  | some e => lower e

/-- Bind a constant. -/
def addConstant (name : Located Identifier) (value : Expression) : Compile Unit := do
  define objectScope name value
  modify fun d => { d with constants := d.constants ++ [name] }

/-- Bind the items of an enumeration, from a value on. -/
def enumerate (step : Expression) : Expression → List EnumItem → Compile Unit
  | _, [] => return
  | current, item :: items => do
    addConstant item.name current
    let increment ← match item.step with
      | none   => pure step
      | some e => lower e
    enumerate step (.binary (.integer .add) current increment) items

/-- Bind what a declaration of constants says. -/
def addConstants : ConstantDecl → Compile Unit
  | .assign name value => do addConstant name (← lower value)
  | .enumeration start step items => do
    let start ← lowerOr 0 start
    let step ← lowerOr 1 step
    enumerate step start items

/-! ### Clock -/

/-- Where a constant was declared. -/
def constantLocation (d : Draft) (name : Identifier) : Location :=
  ((d.constants.find? (·.value == name)).map Located.location).getD {}

/-- The value of a symbol that describes the clock. -/
def clockSymbol (d : Draft) (name : Identifier) : Except (Located CompileError) (Option Nat) :=
  match d.scopes.symbol? objectScope name with
  | none => .ok none
  | some e =>
    let location := constantLocation d name
    match e.evalInt { scopes := d.scopes } with
    | .error error => .error ⟨.eval error, location⟩
    | .ok v =>
      if 0 ≤ v.toInt ∧ v.toInt < 2 ^ 32 then .ok (some v.toInt.toNat)
      else .error ⟨.clock (.range name.spelling v.toInt), location⟩

/-- The clock that an object asks for.  There can be one source only, and a frequency alone means a
crystal of 20 MHz. -/
def clockRequest (d : Draft) (defaultTolerance : Nat) :
    Except (Located CompileError) (Option ClockRequest) := do
  let crystal ← clockSymbol d ⟨"_XTLFREQ"⟩
  let external ← clockSymbol d ⟨"_XINFREQ"⟩
  let frequency ← clockSymbol d ⟨"_CLKFREQ"⟩
  let fast := (← clockSymbol d ⟨"_RCFAST"⟩).isSome
  let slow := (← clockSymbol d ⟨"_RCSLOW"⟩).isSome
  let tolerance := (← clockSymbol d ⟨"_ERRFREQ"⟩).getD defaultTolerance
  let conflict (a b : String) : Except (Located CompileError) (Option ClockRequest) :=
    .error ⟨.clock (.conflict a b), {}⟩
  let pll := crystal.isSome || external.isSome || frequency.isSome
  if crystal.isSome && external.isSome then conflict "_XTLFREQ" "_XINFREQ"
  else if fast && slow then conflict "_RCFAST" "_RCSLOW"
  else if fast && pll then conflict "_RCFAST" "_CLKFREQ"
  else if slow && pll then conflict "_RCSLOW" "_CLKFREQ"
  else
    let request (source : ClockSource) : Except (Located CompileError) (Option ClockRequest) :=
      .ok (some { source, frequency, tolerance })
    match crystal, external with
    | some input, _      => request (.crystal input)
    | none, some input   => request (.external input)
    | none, none         =>
      if slow then request .rcSlow
      else if fast then request .rcFast
      else if frequency.isSome then request (.crystal 20000000)
      else .ok none

/-- Make a clock setting known to the program. -/
def publishClock (s : ClockSetting) : Compile Unit :=
  modify fun d =>
    let mode := d.scopes.addBuiltin objectScope ⟨"CLKMODE_"⟩ (.int (Int64.ofNat s.mode))
    { d with scopes := mode.addBuiltin objectScope ⟨"CLKFREQ_"⟩ (.int (Int64.ofNat s.frequency)) }

/-- Find the clock setting of an object, and make it known.  Without one the fast internal
oscillator runs. -/
def clock (config : Config) : Compile (Option ClockSetting) := do
  let d ← get
  match ← liftExcept (clockRequest d config.clockTolerance) with
  | none => do
    publishClock { mode := 0, frequency := rcFastFrequency }
    return none
  | some request =>
    match request.derive with
    | .error e => throw ⟨.clock e, constantLocation d ⟨"_CLKFREQ"⟩⟩
    | .ok s    => do
      publishClock s
      return some s

/-! ### Children -/

/-- How many of a thing a declaration asks for. -/
def elementCount : Option Expr → Compile Nat
  | none   => return 1
  | some e => do liftExcept (e.countValue (← get).scopes objectScope)

/-- Fail at a place because of what cannot be included. -/
def linkAt {α : Type} (location : Location) (x : Except LinkError α) : Compile α :=
  liftExcept (x.mapError fun e => (⟨.link e, location⟩ : Located CompileError))

/-- Include a child. -/
def addChild (library : Library) (decl : ObjectDecl) : Compile Unit := do
  let count ← elementCount decl.count
  let image ← linkAt decl.path.location (library.object decl.path.value)
  let links ← linkAt decl.name.location ((← get).links.add decl.name.value image count)
  modify fun d => { d with links }

/-- Report warnings that have no place. -/
def warnAll : List ScopeWarning → Compile Unit
  | []      => return
  | w :: ws => do
    warn none w.message
    warnAll ws

/-- Bind what the children make known. -/
def addExports : Compile Unit := do
  let d ← get
  let (scopes, warnings) := Scopes.addSymbols objectScope (d.links.exports 0) d.scopes
  set { d with scopes }
  warnAll warnings

/-! ### Variables -/

/-- Declare a variable of the object. -/
def addVariable (decl : VariableDecl) : Compile Unit := do
  let count ← elementCount decl.count
  let v : ObjectVar :=
    { id := (← get).objectVars.length, name := decl.name.value, kind := decl.kind, count }
  define objectScope decl.name (.objectVar v)
  modify fun d => { d with objectVars := d.objectVars ++ [⟨v, decl.location⟩] }

/-! ### Methods -/

/-- Declare results and parameters, one long each from `offset` on. -/
def addLongs (scope : ScopeId) :
    (offset : Nat) → List (Located Identifier) → Compile (List LocalVar)
  | _, [] => return []
  | offset, name :: names => do
    let v : LocalVar := { id := ← newLocal, name := name.value, kind := .long, offset }
    define scope name (.localVar v)
    let rest ← addLongs scope (offset + 4) names
    return v :: rest

/-- Declare local variables, each at the next offset that its width allows. -/
def addLocals (scope : ScopeId) :
    (offset : Nat) → List LocalDecl → Compile (List (Located LocalVar))
  | _, [] => return []
  | offset, decl :: decls => do
    let count := (← attempt (elementCount decl.count)).getD 1
    let start := alignTo decl.kind.size offset
    let v : LocalVar :=
      { id := ← newLocal, name := decl.name.value, kind := decl.kind, count, offset := start }
    define scope decl.name (.localVar v)
    let rest ← addLocals scope (start + decl.kind.size * count) decls
    return ⟨v, decl.name.location⟩ :: rest

/-- Declare a method, so that bodies of other methods can name it. -/
def addMethod (id : Nat) (decl : MethodDecl) : Compile MethodDraft := do
  let method : Method :=
    { id, name := decl.name.value, parameters := decl.parameters.length,
      returns := decl.results.length, isPublic := decl.isPublic }
  define objectScope decl.name (.method method)
  let scope ← pushScope objectScope
  let longs ← addLongs scope 0 (decl.results ++ decl.parameters)
  let locals ← addLocals scope (4 * longs.length) decl.locals
  return { method, location := decl.location, scope, frame := longs ++ locals.map Located.value,
           locals }

/-- Declare the variables and the methods of an object in the order of its parts.  Methods are
numbered from `first` on. -/
def addDeclarations : (first : Nat) → List Node → Compile (List MethodDraft)
  | _, [] => return []
  | first, .objectVars decls :: rest => do
    attemptAll addVariable decls
    addDeclarations first rest
  | first, .method decl :: rest => do
    let m ← addMethod first decl
    let ms ← addDeclarations (first + 1) rest
    return m :: ms
  | first, _ :: rest => addDeclarations first rest

end Compile

end Propeller
