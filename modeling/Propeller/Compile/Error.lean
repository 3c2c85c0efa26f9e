import Propeller.Assembly.Error
import Propeller.Clock
import Propeller.DebugTable
import Propeller.Link

/-!
# Compile — why a program is refused
-/

namespace Propeller

/-- Why a part of a program cannot be compiled. -/
inductive CompileError
  | undefined (name : Identifier)
  | notAMethod (name : Identifier)
  | notAnObject (name : Identifier)
  | argumentCount (method : Identifier) (expected found : Nat)
  | noResult (method : Identifier)
  | notAssignable
  | notIndexable (name : Identifier)
  | misplacedLeave
  | misplacedNext
  | directiveModifiers (directive : String)
  | expectedFileName
  | eval (error : EvalError)
  | encode (error : EncodeError)
  | link (error : LinkError)
  | clock (error : ClockError)
  | debug (error : DebugError)
deriving Inhabited

/-- The text of the failure. -/
def CompileError.message : CompileError → String
  | .undefined name     => s!"Symbol `{name.spelling}` is undefined"
  | .notAMethod name    => s!"`{name.spelling}` is not a method"
  | .notAnObject name   => s!"`{name.spelling}` is not an object"
  | .argumentCount method expected found =>
      s!"Method `{method.spelling}` expects {expected} arguments, found {found}"
  | .noResult method    => s!"Method `{method.spelling}` does not return a value"
  | .notAssignable      => "Expression is not assignable"
  | .notIndexable name  => s!"`{name.spelling}` cannot be indexed"
  | .misplacedLeave     => "`break` outside of a loop or switch"
  | .misplacedNext      => "`continue` outside of a loop"
  | .directiveModifiers directive =>
      s!"Directive `{directive}` takes no condition or effect"
  | .expectedFileName   => "Expected a file name"
  | .eval error         => error.message
  | .encode error       => error.message
  | .link error         => error.message
  | .clock error        => error.message
  | .debug error        => error.message

end Propeller
