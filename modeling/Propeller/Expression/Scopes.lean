import Propeller.Expression.Basic

/-!
# Expressions — scopes

Symbols live in frames.  A frame has three tables — predefined symbols, the user's symbols, and
definitions, which stand for an expression when they consist of one token — and a parent, which was
there before it.  A name is looked up from a frame outwards, and in each frame in that order of the
tables (`Frame.symbol?`, `Scopes.symbol?`).
-/

namespace Propeller

/-- A definition made of tokens. -/
structure Definition where
  tokens : List String
  /-- What a definition of one token stands for. -/
  expression : Option Expression := none
deriving Inhabited

/-- What names are bound to, the latest first. -/
abbrev Bindings (α : Type) := List (Identifier × α)

/-- One level of symbols. -/
structure Frame where
  parent : Option ScopeId := none
  symbols : Bindings Expression := []
  builtins : Bindings Expression := []
  definitions : Bindings Definition := []
deriving Inhabited

/-- What a frame binds a name to: predefined symbols come before the user's, and these before
definitions. -/
def Frame.symbol? (f : Frame) (name : Identifier) : Option Expression :=
  f.builtins.lookup name <|> f.symbols.lookup name <|>
    (f.definitions.lookup name).bind Definition.expression

/-- What is odd about a new symbol. -/
inductive ScopeWarning
  | duplicate (name : Identifier)
  | definition (name : Identifier)
deriving Inhabited

/-- The text of the warning. -/
def ScopeWarning.message : ScopeWarning → String
  | .duplicate name  => s!"Symbol `{name.spelling}` is already defined"
  | .definition name => s!"Symbol `{name.spelling}` shadows a preprocessor definition"

/-- All frames, by number; the first is the outermost. -/
structure Scopes where
  frames : Array Frame
deriving Inhabited

namespace Scopes

/-! ### The outermost frame -/

/-- The special registers of a cog. -/
def registers : List (String × Nat) :=
  [ ("IJMP3", 0x1F0), ("IRET3", 0x1F1), ("IJMP2", 0x1F2), ("IRET2", 0x1F3),
    ("IJMP1", 0x1F4), ("IRET1", 0x1F5), ("PA", 0x1F6), ("PB", 0x1F7),
    ("PTRA", 0x1F8), ("PTRB", 0x1F9), ("DIRA", 0x1FA), ("DIRB", 0x1FB),
    ("OUTA", 0x1FC), ("OUTB", 0x1FD), ("INA", 0x1FE), ("INB", 0x1FF) ]

/-- The predefined constants. -/
def constants : List (String × Int64) :=
  [ ("TRUE", -1), ("FALSE", 0), ("POSX", 0x7FFFFFFF), ("NEGX", -0x80000000) ]

/-- The frame that every program starts with. -/
def rootFrame : Frame :=
  { builtins :=
      registers.map (fun (name, address) => (⟨name⟩, .register address)) ++
      constants.map (fun (name, value) => (⟨name⟩, .int value)) }

/-- The number of the outermost frame. -/
def root : ScopeId := 0

/-- The outermost frame alone. -/
def initial : Scopes := ⟨#[rootFrame]⟩

/-! ### Frames and their parents -/

/-- The number that the next frame gets. -/
def nextScope (s : Scopes) : ScopeId := s.frames.size

/-- Open a frame inside another. -/
def push (s : Scopes) (parent : ScopeId) : Scopes :=
  ⟨s.frames.push { parent := some parent }⟩

/-- The parent of a frame. -/
def parent? (s : Scopes) (scope : ScopeId) : Option ScopeId :=
  s.frames[scope]?.bind Frame.parent

/-- At most `steps` frames from a frame outwards. -/
def outward (s : Scopes) : (steps : Nat) → ScopeId → List Frame
  | 0,         _     => []
  | steps + 1, scope =>
    match s.frames[scope]? with
    | none       => []
    | some frame => frame :: match frame.parent with
      | none        => []
      | some parent => s.outward steps parent

/-- The frames from a frame outwards.  A parent has a smaller number than its child, so that there
are no more of them than the number of the frame says. -/
def chain (s : Scopes) (scope : ScopeId) : List Frame := s.outward (scope + 1) scope

/-! ### Lookup -/

/-- What a name stands for in a frame. -/
def symbol? (s : Scopes) (scope : ScopeId) (name : Identifier) : Option Expression :=
  (s.chain scope).findSome? (·.symbol? name)

/-- The definition of a name that a frame sees. -/
def definition? (s : Scopes) (scope : ScopeId) (name : Identifier) : Option Definition :=
  (s.chain scope).findSome? (·.definitions.lookup name)

/-- A definition of the name is seen from the frame. -/
def isDefined (s : Scopes) (scope : ScopeId) (name : Identifier) : Bool :=
  (s.definition? scope name).isSome

/-! ### Change -/

/-- Change one frame. -/
def modifyFrame (s : Scopes) (scope : ScopeId) (f : Frame → Frame) : Scopes :=
  ⟨s.frames.modify scope f⟩

/-- Bind a predefined symbol. -/
def addBuiltin (s : Scopes) (scope : ScopeId) (name : Identifier) (value : Expression) : Scopes :=
  s.modifyFrame scope fun f => { f with builtins := (name, value) :: f.builtins }

/-- What is to be said about a new symbol: the user's symbols that the frame sees come before its
definitions. -/
def warningFor (s : Scopes) (scope : ScopeId) (name : Identifier) : Option ScopeWarning :=
  if ((s.chain scope).findSome? (·.symbols.lookup name)).isSome then some (.duplicate name)
  else if s.isDefined scope name then some (.definition name)
  else none

/-- Bind a symbol of the user. -/
def addSymbol (s : Scopes) (scope : ScopeId) (name : Identifier) (value : Expression) : Scopes :=
  s.modifyFrame scope fun f => { f with symbols := (name, value) :: f.symbols }

/-- Bind symbols of the user one after the other, and tell what is to be said about them. -/
def addSymbols (scope : ScopeId) :
    List (Identifier × Expression) → Scopes → Scopes × List ScopeWarning
  | [], s => (s, [])
  | (name, value) :: rest, s =>
    let (last, warnings) := addSymbols scope rest (s.addSymbol scope name value)
    (last, (s.warningFor scope name).toList ++ warnings)

/-- What the tokens of a definition stand for: a single one is a literal or a name. -/
def definitionOf (scope : ScopeId) (tokens : List String) : Definition :=
  match tokens with
  | [token] =>
    let expression := match Literal.read? token with
      | some literal => .number literal
      | none         => .symbol scope ⟨token⟩
    { tokens, expression := some expression }
  | _ => { tokens }

/-- Bind a definition. -/
def addDefinition (s : Scopes) (scope : ScopeId) (name : Identifier) (tokens : List String) :
    Scopes :=
  s.modifyFrame scope fun f =>
    { f with definitions := (name, definitionOf scope tokens) :: f.definitions }

/-- Forget everything that a frame binds. -/
def release (s : Scopes) (scope : ScopeId) : Scopes :=
  s.modifyFrame scope fun f => { parent := f.parent }

end Scopes

end Propeller
