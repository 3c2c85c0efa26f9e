import Propeller.Source.Identifier

/-!
# Expressions — why a value is missing
-/

namespace Propeller

/-- Why an expression has no value. -/
inductive EvalError
  /-- The value exists only when the program runs. -/
  | notConstant (what : String)
  | undefined (name : Identifier)
  /-- The line that the expression refers to has no address yet. -/
  | unresolved
  | divisionByZero
  /-- A text of other than one byte stands where a number is needed. -/
  | stringValue (text : String)
  | mixedTypes (operator : String)
  /-- More definitions are nested than are followed. -/
  | recursive (name : Identifier)
deriving Inhabited

/-- The text of the failure. -/
def EvalError.message : EvalError → String
  | .notConstant what    => s!"Expression is not constant: `{what}`"
  | .undefined name      => s!"Symbol `{name.spelling}` is undefined"
  | .unresolved          => "Address is not resolved yet"
  | .divisionByZero      => "Division by zero"
  | .stringValue text    => s!"String `{text}` cannot be used as a number"
  | .mixedTypes operator => s!"Operator `{operator}` cannot mix integer and float operands"
  | .recursive name      => s!"Symbol `{name.spelling}` is defined in terms of itself"

end Propeller
