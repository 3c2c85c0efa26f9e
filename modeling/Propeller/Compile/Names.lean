import Propeller.Compile.Lower
import Propeller.Compile.Term
import Propeller.Expression.Use

/-!
# Compile — from expressions to terms

Names are looked up and constant parts are put together (`Expr.term`).  Whatever an expression
refers to is noted on the way, also when it turns out later that the expression is wrong.
-/

namespace Propeller

/-- What names mean in a method. -/
structure Names where
  scopes : Scopes
  scope : ScopeId
  links : Links
  /-- The width of what stands at a label. -/
  labelKind : LabelId → DataType

/-- A computation that notes what is referred to. -/
abbrev Tracked := EStateM (Located CompileError) Uses

/-- Note a reference. -/
def Tracked.use (x : Use) : Tracked Unit := modify (·.mark x)

namespace Names

/-- What a name stands for. -/
def symbol? (n : Names) (name : Identifier) : Option Expression := n.scopes.resolve n.scope name

/-- The variable of a name. -/
def variableOf (n : Names) (name : Identifier) (indexed : Bool) (location : Location) :
    Tracked Variable :=
  let refused : CompileError := if indexed then .notIndexable name else .notAssignable
  match n.symbol? name with
  | some (.localVar v) => do
    Tracked.use (.localVar v.id)
    return ⟨.localVar v, v.kind⟩
  | some (.objectVar v) => do
    Tracked.use (.objectVar v.id)
    return ⟨.objectVar v, v.kind⟩
  | some (.label line) => return ⟨.dat (.hubLabel line), n.labelKind line⟩
  | some (.register a) =>
    if indexed then throw ⟨refused, location⟩ else return ⟨.register (.register a), .long⟩
  | some _ => throw ⟨refused, location⟩
  | none   => throw ⟨.undefined name, location⟩

/-- The method that a call means, of the object itself or of a child.  It has to take as many
arguments as are given, and to have a result if one is wanted. -/
def callee (n : Names) (object : Option (Located Identifier)) (method : Located Identifier)
    (given : Nat) (wanted : Bool) (location : Location) : Tracked Method := do
  let name ← match object with
    | none   => pure method.value
    | some o =>
      if (n.links.get? o.value).isNone then throw ⟨.notAnObject o.value, o.location⟩
      else pure (o.value.qualified method.value)
  match n.symbol? name with
  | some (.method m) =>
    if given ≠ m.parameters then throw ⟨.argumentCount name m.parameters given, location⟩
    else if wanted ∧ m.returns = 0 then throw ⟨.noResult name, location⟩
    else return m
  | some _ => throw ⟨.notAMethod name, method.location⟩
  | none   => throw ⟨.undefined name, method.location⟩

end Names

namespace Expr

/-- The expression is constant, or will be when addresses are known. -/
def isStatic (n : Names) : Expr → Bool
  | literal _ _ => true
  | text _ _    => true
  | name _ x    =>
    match n.symbol? x with
    | none                => false
    | some (.objectVar _) => false
    | some (.localVar _)  => false
    | some (.method _)    => false
    | some (.register _)  => false
    | some (.label _)     => false
    | some _              => true
  | member _ object _ m =>
    match n.symbol? (object.value.qualified m.value) with
    | none             => false
    | some (.method _) => false
    | some _           => true
  | unary _ _ operand  => operand.isStatic n
  | binary _ _ l r     => l.isStatic n && r.isStatic n
  | ternary _ c y no   => c.isStatic n && y.isStatic n && no.isStatic n
  | index _ _ _        => false
  | addressOf _ _      => false
  | call _ _ _ _ _     => false

/-- The term of a constant expression: it has a value, or lacks only addresses. -/
def staticTerm (n : Names) (e : Expr) : Except (Located CompileError) Term := do
  let value ← e.lower n.scopes n.scope
  match value.eval { scopes := n.scopes } with
  | .ok _              => .ok (.constant value)
  | .error .unresolved => .ok (.constant value)
  | .error error       => .error ⟨.eval error, e.location⟩

mutual

/-- The term of an expression. -/
def term (n : Names) (e : Expr) : Tracked Term :=
  if e.isStatic n then liftExcept (e.staticTerm n)
  else match e with
  | name l x =>
    match n.symbol? x with
    | some (.method _) => do
      let m ← n.callee none ⟨x, l⟩ 0 true l
      Tracked.use (.method m.id)
      return .call m [] none
    | _ => do return .read (← n.variableOf x false l) none
  | member l object i x => do
    let m ← n.callee (some object) x 0 true l
    let i ← termOpt n i
    Tracked.use (.method m.id)
    return .call m [] i
  | index _ base i => do
    let i ← i.term n
    return .read (← n.variableOf base.value true base.location) (some i)
  | unary _ op operand => do return .unary op (← operand.term n)
  | binary _ op left right => do
    let l ← left.term n
    let r ← right.term n
    return .binary op l r
  | ternary _ condition yes no => do
    let c ← condition.term n
    let y ← yes.term n
    let o ← no.term n
    return .ternary c y o
  | addressOf _ (name l x) => do return .address (← n.variableOf x false l) none
  | addressOf _ (index _ base i) => do
    let i ← i.term n
    return .address (← n.variableOf base.value true base.location) (some i)
  | call l object i method arguments => do
    let m ← n.callee object method arguments.length true l
    let arguments ← termAll n arguments
    let i ← termOpt n i
    Tracked.use (.method m.id)
    return .call m arguments i
  | e => throw e.notConstant

/-- The terms of several expressions. -/
def termAll (n : Names) : List Expr → Tracked (List Term)
  | []      => return []
  | e :: es => do
    let t ← e.term n
    let ts ← termAll n es
    return t :: ts

/-- The term of an expression that may be missing. -/
def termOpt (n : Names) : Option Expr → Tracked (Option Term)
  | none   => return none
  | some e => do return some (← e.term n)

end

/-- What an assignment writes to: a variable, and the index of one of its elements. -/
def target (n : Names) : Expr → Tracked (Variable × Option Expr)
  | name l x       => do return (← n.variableOf x false l, none)
  | index _ base i => do return (← n.variableOf base.value true base.location, some i)
  | e              => throw ⟨.notAssignable, e.location⟩

end Expr

end Propeller
