import Propeller.Expression.Error
import Propeller.Number.Numeral

/-!
# Assembly — why there is no code
-/

namespace Propeller

/-- Why an instruction, a data directive or a piece of bytecode cannot be encoded. -/
inductive EncodeError
  | unknownMnemonic (name : String)
  | unknownCondition (name : String)
  | unknownEffect (name : String)
  | invalidArguments (mnemonic expected : String)
  | invalidEffect (mnemonic effect : String)
  /-- The instruction cannot have a condition. -/
  | invalidCondition (mnemonic : String)
  | registerOutOfRange (address : Int)
  | valueOutOfRange (value : Int) (range : String)
  | branchOutOfRange (offset : Int)
  | addressOutOfRange (address : Int)
  /-- The target of a relative branch in hub memory is not a whole number of longs away. -/
  | unalignedBranch
  | pointerRegister
  | eval (error : EvalError)
deriving Inhabited

/-- The text of the failure. -/
def EncodeError.message : EncodeError → String
  | .unknownMnemonic name               => s!"Unknown instruction or directive `{name}`"
  | .unknownCondition name              => s!"Unknown condition `{name}`"
  | .unknownEffect name                 => s!"Unknown effect `{name}`, expected WC, WZ or WCZ"
  | .invalidArguments mnemonic expected =>
      s!"Invalid operands for `{mnemonic}`, expected `{expected}`"
  | .invalidEffect mnemonic effect      => s!"Effect `{effect}` is not allowed for `{mnemonic}`"
  | .invalidCondition mnemonic          => s!"Instruction `{mnemonic}` cannot be conditional"
  | .registerOutOfRange address         =>
      "Register address $" ++ Numeral.hex64 address ++ " out of range"
  | .valueOutOfRange value range        => s!"Value {value} exceeds range {range}"
  | .branchOutOfRange offset            => s!"Branch offset {offset} exceeds range -256..255"
  | .addressOutOfRange address          => s!"Address {address} exceeds the 20-bit branch range"
  | .unalignedBranch                    =>
      "Relative hub branch to an address that is not long aligned"
  | .pointerRegister                    => "Expected PA, PB, PTRA or PTRB"
  | .eval error                         => error.message

end Propeller
