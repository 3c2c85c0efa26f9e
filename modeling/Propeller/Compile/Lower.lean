import Propeller.Compile.Error
import Propeller.Source.Tree

/-!
# Compile — constant expressions

A written expression becomes one that can be evaluated: names stay names of a frame, to be looked
up when the value is needed, so that they may be defined further down.  Calls and elements of
variables have no place in it.
-/

namespace Propeller

/-- How often a name that only stands for another is followed. -/
def maxAliases : Nat := 16

namespace Scopes

/-- Follow an expression that is a name, at most `steps` times. -/
def follow (s : Scopes) : (steps : Nat) → Expression → Option Expression
  | steps + 1, .symbol scope name => (s.symbol? scope name).bind (s.follow steps)
  | _,         e                  => some e

/-- What a name stands for, through names that only stand for others. -/
def resolve (s : Scopes) (scope : ScopeId) (name : Identifier) : Option Expression :=
  (s.symbol? scope name).bind (s.follow maxAliases)

end Scopes

namespace Expr

/-- The failure of an expression that is not constant. -/
def notConstant (e : Expr) : Located CompileError :=
  ⟨.eval (.notConstant e.describe), e.location⟩

/-- The expression that is evaluated for a written one. -/
def lower (s : Scopes) (scope : ScopeId) : Expr → Except (Located CompileError) Expression
  | literal _ value     => .ok (.number value)
  | text _ value        => .ok (.text value)
  | name _ n            => .ok (.symbol scope n)
  | member _ object _ m => .ok (.symbol scope (object.value.qualified m.value))
  | unary _ op operand  => do return .unary op (← operand.lower s scope)
  | binary _ op left right => do
      let l ← left.lower s scope
      let r ← right.lower s scope
      return .binary op l r
  | ternary _ condition yes no => do
      let c ← condition.lower s scope
      let y ← yes.lower s scope
      let n ← no.lower s scope
      return .ternary c y n
  | addressOf l (name inner n) =>
      match s.resolve scope n with
      | some (.label line) => .ok (.hubLabel line)
      | some _             => .error (addressOf l (name inner n)).notConstant
      | none               => .error ⟨.undefined n, inner⟩
  | e                   => .error e.notConstant

/-- The integer that a constant expression stands for. -/
def constantValue (s : Scopes) (scope : ScopeId) (e : Expr) :
    Except (Located CompileError) Int64 := do
  let value ← e.lower s scope
  (value.evalInt { scopes := s }).mapError fun error => ⟨.eval error, e.location⟩

/-- The number that a constant expression gives for a count: none below zero, in 32 bits. -/
def countValue (s : Scopes) (scope : ScopeId) (e : Expr) : Except (Located CompileError) Nat := do
  return (max 0 (← e.constantValue s scope).toInt).toNat % 2 ^ 32

end Expr

end Propeller
