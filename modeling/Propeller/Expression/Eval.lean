import Propeller.Bytes
import Propeller.Expression.Scopes

/-!
# Expressions — evaluation

An expression is evaluated in an environment of symbols and of line addresses.  Definitions are
followed to a depth of `maxDepth`, so that one that leads back to itself ends in an error instead
of going on for ever: `Expression.evalWith` evaluates with a given meaning of symbols, and
`Expression.evalAt` unfolds that meaning one level at a time.
-/

namespace Propeller

/-! ### Addresses of lines -/

/-- Where a line is. -/
structure Address where
  /-- The logical address: in longs for a cog, in bytes for the hub. -/
  address : Int
  /-- The offset in the image. -/
  object : Int
  hub : Bool
deriving DecidableEq, Inhabited

/-- The addresses of lines, by number; a line that has not been placed has none. -/
structure Addresses where
  table : Array (Option Address) := #[]
deriving Inhabited

namespace Addresses

/-- The number that the next line gets. -/
def nextLabel (t : Addresses) : LabelId := t.table.size

/-- Make room for one more line. -/
def alloc (t : Addresses) : Addresses := ⟨t.table.push none⟩

/-- The address of a line. -/
def get? (t : Addresses) (line : LabelId) : Option Address := t.table[line]?.join

/-- Placing a line there would change its address. -/
def moves (t : Addresses) (line : LabelId) (a : Address) : Bool := t.get? line ≠ some a

/-- Place a line. -/
def set (t : Addresses) (line : LabelId) (a : Address) : Addresses :=
  ⟨t.table.setIfInBounds line (some a)⟩

end Addresses

/-! ### Values -/

/-- What expressions are evaluated in. -/
structure Environment where
  scopes : Scopes
  addresses : Addresses := {}
deriving Inhabited

/-- How many definitions may be nested. -/
def maxDepth : Nat := 64

/-- The value of a text: a text of one byte counts as that byte. -/
def textValue (text : String) : Except EvalError Number :=
  match utf8Bytes text with
  | [byte] => .ok (.int (Int64.ofNat byte.toNat))
  | _      => .error (.stringValue text)

namespace Expression

/-- The value of an expression, given what symbols and lines stand for. -/
def evalWith (symbol : ScopeId → Identifier → Except EvalError Number)
    (address : LabelId → Option Address) : Expression → Except EvalError Number
  | .number literal      => .ok literal.value
  | .text value          => textValue value
  | .unary op operand    => do op.apply (← operand.evalWith symbol address)
  | .binary op left right => do
      let l ← left.evalWith symbol address
      let r ← right.evalWith symbol address
      op.apply l r
  | .ternary condition yes no => do
      let c ← (← condition.evalWith symbol address).toInt
      if c ≠ 0 then yes.evalWith symbol address else no.evalWith symbol address
  | .symbol scope name   => symbol scope name
  | .objectVar v         => .error (.notConstant v.name.spelling)
  | .localVar v          => .error (.notConstant v.name.spelling)
  | .method m            => .error (.notConstant m.name.spelling)
  | .register a          => .ok (.int (Int64.ofNat a))
  | .label line          =>
      match address line with
      | some a => .ok (.int (Int64.ofInt a.address))
      | none   => .error .unresolved
  | .hubLabel line       =>
      match address line with
      | some a => .ok (.int (Int64.ofInt a.object))
      | none   => .error .unresolved

/-- The value of an expression with at most `depth` definitions nested in it. -/
def evalAt (env : Environment) : (depth : Nat) → Expression → Except EvalError Number
  | 0         => evalWith (fun _ name => .error (.recursive name)) env.addresses.get?
  | depth + 1 =>
    evalWith
      (fun scope name =>
        match env.scopes.symbol? scope name with
        | some e => evalAt env depth e
        | none   => .error (.undefined name))
      env.addresses.get?

/-- The value of an expression. -/
def eval (e : Expression) (env : Environment) : Except EvalError Number := e.evalAt env maxDepth

/-- The value of an expression that has to be an integer. -/
def evalInt (e : Expression) (env : Environment) : Except EvalError Int64 := do
  (← e.eval env).toInt

/-- The expression has a value now, or is a text. -/
def isConstant (e : Expression) (env : Environment) : Bool :=
  e.text?.isSome || (e.eval env).isOk

/-- The address of the line that an expression names, when at most `steps` expressions are looked
at on the way through symbols. -/
def targetWithin (env : Environment) : (steps : Nat) → Expression → Option Address
  | 0,         _                  => none
  | _ + 1,     .label line        => env.addresses.get? line
  | _ + 1,     .hubLabel line     => env.addresses.get? line
  | steps + 1, .symbol scope name =>
      (env.scopes.symbol? scope name).bind (targetWithin env steps)
  | _ + 1,     _                  => none

/-- The address of the line that an expression names, itself or through symbols. -/
def target? (e : Expression) (env : Environment) : Option Address := e.targetWithin env maxDepth

end Expression

end Propeller
