import Propeller.Number.Operator

/-!
# Bytecode — opcodes

The interpreter runs a stack machine whose instructions begin with one byte.
-/

namespace Propeller

/-- Instructions with the address of another line. -/
inductive Branch
  | jmp | jz | jnz
  /-- Drop a zero and go. -/
  | tjz
  /-- Count down and go, or drop the zero. -/
  | djnz
  | caseValue | caseRange
  /-- Push the address, for the end of a selection. -/
  | pushTarget
  | repeatLoop
deriving DecidableEq, Inhabited

/-- All branches. -/
def Branch.all : List Branch :=
  [.jmp, .jz, .jnz, .tjz, .djnz, .caseValue, .caseRange, .pushTarget, .repeatLoop]

/-- What the interpreter can do in one step. -/
inductive Op
  /-- Begin a call whose result is dropped. -/
  | anchor
  /-- Begin a call whose result stays on the stack. -/
  | anchorPush
  | anchorTrap | anchorTrapPush
  | returnResults | returnArgs | abort | abortArg
  | callObject | callObjectIndexed | call
  | branch (b : Branch)
  | pop | caseDone
  | inline | debug | repeatInit
  | conByte | conByteNot | conWord | conWordNot | conLong
  | conDecod | conDecodNot | conBmask | conBmaskNot
  | setupRegister
  | unary (op : UnaryOp)
  | binary (op : BinaryOp)
  | read | write | writePush | address
deriving DecidableEq, Inhabited

/-- The opcode of a branch. -/
def Branch.code : Branch → Nat
  | .jmp        => 0x12
  | .jz         => 0x13
  | .jnz        => 0x14
  | .tjz        => 0x15
  | .djnz       => 0x16
  | .caseValue  => 0x1C
  | .caseRange  => 0x1D
  | .pushTarget => 0x27
  | .repeatLoop => 0x2B

/-- The opcode of a unary operator. -/
def UnaryOp.code : UnaryOp → Nat
  | .negate      => 0x60
  | .bitNot      => 0x61
  | .logicalNot  => 0x62
  | .abs         => 0x63
  | .encod       => 0x64
  | .decod       => 0x65
  | .bmask       => 0x66
  | .ones        => 0x67
  | .sqrt        => 0x68
  | .float       => 0x84
  | .round       => 0x85
  | .trunc       => 0x86
  | .floatNegate => 0x88
  | .floatAbs    => 0x89
  | .floatSqrt   => 0x8A

/-- The opcode of an integer operator. -/
def IntegerOp.code : IntegerOp → Nat
  | .shr                    => 0x69
  | .shl                    => 0x6A
  | .sar                    => 0x6B
  | .ror                    => 0x6C
  | .rol                    => 0x6D
  | .rev                    => 0x6E
  | .zerox                  => 0x6F
  | .signx                  => 0x70
  | .add                    => 0x71
  | .sub                    => 0x72
  | .mul                    => 0x73
  | .div                    => 0x74
  | .divUnsigned            => 0x75
  | .rem                    => 0x76
  | .remUnsigned            => 0x77
  | .and                    => 0x78
  | .or                     => 0x79
  | .xor                    => 0x7A
  | .logicalAnd             => 0x7B
  | .logicalOr              => 0x7C
  | .logicalXor             => 0x7D
  | .limitMin               => 0x7E
  | .limitMax               => 0x7F
  | .less                   => 0x90
  | .lessUnsigned           => 0x91
  | .lessOrEqual            => 0x92
  | .lessOrEqualUnsigned    => 0x93
  | .equal                  => 0x94
  | .notEqual               => 0x95
  | .greaterOrEqual         => 0x96
  | .greaterOrEqualUnsigned => 0x97
  | .greater                => 0x98
  | .greaterUnsigned        => 0x99
  | .compare                => 0x9A
  | .sca                    => 0x9B
  | .scas                   => 0x9C
  | .frac                   => 0x9D

/-- The opcode of a float operator. -/
def FloatOp.code : FloatOp → Nat
  | .less     => 0x20
  | .greater  => 0x21
  | .equal    => 0x22
  | .notEqual => 0x23
  | .add      => 0x8B
  | .sub      => 0x8C
  | .mul      => 0x8D
  | .div      => 0x8E

namespace Op

/-- Everything that the interpreter can do in one step. -/
def all : List Op :=
  [ anchor, anchorPush, anchorTrap, anchorTrapPush, returnResults, returnArgs, abort, abortArg,
    callObject, callObjectIndexed, call, pop, caseDone, inline, debug, repeatInit, conByte,
    conByteNot, conWord, conWordNot, conLong, conDecod, conDecodNot, conBmask, conBmaskNot,
    setupRegister, read, write, writePush, address ] ++
    Branch.all.map branch ++ UnaryOp.all.map unary ++ BinaryOp.all.map binary

/-- The opcode. -/
def code : Op → Nat
  | anchor               => 0x00
  | anchorPush           => 0x01
  | anchorTrap           => 0x02
  | anchorTrapPush       => 0x03
  | returnResults        => 0x04
  | returnArgs           => 0x05
  | abort                => 0x06
  | abortArg             => 0x07
  | callObject           => 0x08
  | callObjectIndexed    => 0x09
  | call                 => 0x0A
  | branch b             => b.code
  | pop                  => 0x17
  | caseDone             => 0x1E
  | inline               => 0x28
  | debug                => 0x29
  | repeatInit           => 0x2A
  | conByte              => 0x40
  | conByteNot           => 0x41
  | conWord              => 0x42
  | conWordNot           => 0x43
  | conLong              => 0x44
  | conDecod             => 0x45
  | conDecodNot          => 0x46
  | conBmask             => 0x47
  | conBmaskNot          => 0x48
  | setupRegister        => 0x49
  | unary op             => op.code
  | binary (.integer op) => op.code
  | binary (.float op)   => op.code
  | read                 => 0x80
  | write                => 0x81
  | writePush            => 0x82
  | address              => 0x83

/-- The byte of an instruction. -/
def byte (o : Op) : UInt8 := UInt8.ofNat o.code

end Op

end Propeller
