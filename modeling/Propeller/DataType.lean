/-!
# Data types
-/

namespace Propeller

/-- The width of a datum. -/
inductive DataType
  | byte | word | long
deriving DecidableEq, Inhabited

namespace DataType

/-- How many bytes a datum has. -/
def size : DataType → Nat
  | byte => 1
  | word => 2
  | long => 4

/-- How the width is written. -/
def text : DataType → String
  | byte => "byte"
  | word => "word"
  | long => "long"

end DataType

end Propeller
