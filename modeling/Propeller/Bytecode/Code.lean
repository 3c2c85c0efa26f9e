import Propeller.Assembly.Error
import Propeller.Bytecode.Constant
import Propeller.Bytecode.Varint
import Propeller.Expression.Eval

/-!
# Bytecode — code

`Code` is an instruction of the interpreter with what it refers to: variables, methods, lines of
the same method, blocks of assembly code.  Where these are is decided late and kept in a
`Resolution`; `Code.encode` gives the bytes once it is known, and `Code.size` how many bytes there
are as far as it is known.
-/

namespace Propeller

/-- The number of a line of a method. -/
abbrev LineId := Nat

/-- Where a variable lives. -/
inductive Slot
  | register (address : Expression)
  | objectVar (v : ObjectVar)
  | localVar (v : LocalVar)
  /-- At an offset of the image. -/
  | dat (offset : Expression)
deriving Inhabited

/-- A variable, or an element of it whose index is on the stack. -/
structure Setup where
  slot : Slot
  kind : DataType
  indexed : Bool := false
deriving Inhabited

/-- An instruction of the interpreter. -/
inductive Code
  | op (o : Op)
  | constant (value : Expression)
  /-- To the beginning of another line. -/
  | branch (b : Branch) (line : LineId)
  /-- Drop bytes of the stack. -/
  | pop (bytes : Nat)
  /-- Do something with a variable. -/
  | access (setup : Setup) (o : Op)
  | call (m : Method) (indexed : Bool)
  /-- Run a block of assembly code, by its number. -/
  | inline (origin : Nat) (block : Nat)
  | debug (values record : Nat)
deriving Inhabited

/-- What has been decided about the things that code refers to. -/
structure Resolution where
  environment : Environment
  /-- The offset of a variable of the object, by its number. -/
  variableOffset : Nat → Option Nat := fun _ => none
  /-- The place of a method in its method table. -/
  methodIndex : Method → Nat := fun _ => 0
  /-- The bytes of a block of assembly code, by its number. -/
  block : Nat → Bytes := fun _ => []

/-! ### Variables -/

/-- The memory that offsets count from. -/
inductive Base
  /-- The image of the object. -/
  | object
  /-- The variables of the object. -/
  | objectVars
  /-- The frame of the method. -/
  | frame
deriving DecidableEq, Inhabited

/-- The order of the memories in the opcodes. -/
def Base.code : Base → Nat
  | .object     => 0
  | .objectVars => 1
  | .frame      => 2

/-- The order of the widths in the opcodes. -/
def DataType.code : DataType → Nat
  | .byte => 0
  | .word => 1
  | .long => 2

/-- Where a slot is: a register, or an offset in one of the memories. -/
inductive Place
  | register (address : Nat)
  | memory (base : Base) (offset : Nat)
deriving DecidableEq, Inhabited

namespace Slot

/-- The low 32 bits of the value of an expression that has to be an integer. -/
def word (env : Environment) (e : Expression) : Except EncodeError Nat := do
  return (lowWord (← (e.evalInt env).mapError .eval)).toNat

/-- Where a slot is. -/
def place (r : Resolution) : Slot → Except EncodeError Place
  | register address => do return .register (← word r.environment address)
  | objectVar v      =>
    match r.variableOffset v.id with
    | some offset => .ok (.memory .objectVars offset)
    | none        => .error (.eval .unresolved)
  | localVar v       => .ok (.memory .frame v.offset)
  | dat offset       => do return .memory .object (← word r.environment offset)

end Slot

namespace Setup

/-- The general form of an access to memory: memory, width and offset. -/
def general (kind : DataType) (indexed : Bool) (base : Base) (offset : Nat) : Bytes :=
  let first := if indexed then 0x53 else 0x4A
  UInt8.ofNat (first + base.code * 3 + kind.code) :: Varint.unsigned offset

/-- An access.  The first sixteen longs of a frame and of the variables have forms of one byte. -/
def bytes (kind : DataType) (indexed : Bool) (place : Place) (o : Op) : Bytes :=
  match place with
  | .register address => Op.setupRegister.byte :: Varint.unsigned address ++ [o.byte]
  | .memory base offset =>
    let fast (first : Nat) : UInt8 := UInt8.ofNat (first + offset / 4)
    if kind = .long ∧ !indexed ∧ offset % 4 = 0 ∧ offset / 4 < 16 then
      match base, o with
      | .frame, .read  => [fast 0xD0]
      | .frame, .write => [fast 0xE0]
      | .frame, _      => [fast 0xC0, o.byte]
      | .objectVars, _ => [fast 0xB0, o.byte]
      | .object, _     => general kind indexed base offset ++ [o.byte]
    else general kind indexed base offset ++ [o.byte]

end Setup

/-! ### Encoding -/

/-- The operand of a branch whose target is `distance` bytes after its opcode.  The offset counts
from the end of the branch, so that it depends on its own length: the shortest length that agrees
with itself is taken, or four bytes if none does. -/
def branchOperand (distance : Int) : Bytes :=
  let operand (size : Nat) : Bytes := Varint.signed ((distance - size).bmod (2 ^ 32))
  match [2, 3, 4].find? fun size => (operand size).length + 1 = size with
  | some size => operand size
  | none      => operand 5

namespace Code

/-- The bytes of an instruction that stands at `here`, with the addresses of the lines of its
method. -/
def encode (r : Resolution) (here : Int) (lines : Array Int) : Code → Except EncodeError Bytes
  | op o               => .ok [o.byte]
  | constant value     => do
      let n ← (value.eval r.environment).mapError .eval
      return (ConstantForm.choose n.word).bytes
  | branch b line      => .ok ((Op.branch b).byte :: branchOperand (lines.getD line 0 - here))
  | pop bytes          => .ok (Op.pop.byte :: Varint.unsigned bytes)
  | access setup o     => do
      return Setup.bytes setup.kind setup.indexed (← setup.slot.place r) o
  | call m indexed     =>
      let index := Varint.unsigned (r.methodIndex m)
      match m.link with
      | none      => .ok (Op.call.byte :: index)
      | some link =>
        let o := if indexed then Op.callObjectIndexed else Op.callObject
        .ok (o.byte :: Varint.unsigned link.object ++ index)
  | inline origin block =>
      let code := r.block block
      let last := Varint.unsigned (code.length / 4 - 1)
      .ok (Op.inline.byte :: Varint.unsigned origin ++ last ++ code)
  | debug values record => .ok [Op.debug.byte, UInt8.ofNat values, UInt8.ofNat record]

/-- How many bytes an instruction takes; as long as it cannot be encoded, more than it will. -/
def size (r : Resolution) (here : Int) (lines : Array Int) (c : Code) : Nat :=
  match c.encode r here lines, c with
  | .ok bytes, _          => bytes.length
  | .error _,  constant _ => 5
  | .error _,  _          => 6

end Code

end Propeller
