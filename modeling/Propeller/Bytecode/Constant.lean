import Propeller.Bytecode.Opcode
import Propeller.Bytes

/-!
# Bytecode — constants

A 32-bit constant has several forms of different length.  `ConstantForm.choose` takes the first
form that fits, and `ConstantForm.value` says what a form stands for.
-/

namespace Propeller

/-- A way to push a constant. -/
inductive ConstantForm
  /-- A number from `-1` to `14`, in the opcode itself, by its distance from `-1`. -/
  | small (distance : Nat)
  | byte (v : Nat)
  | byteNot (v : Nat)
  /-- The word with one bit set. -/
  | decod (bit : Nat)
  /-- The word with one bit clear. -/
  | decodNot (bit : Nat)
  /-- The word with the bits up to one set. -/
  | bmask (bit : Nat)
  /-- The word with the bits up to one clear. -/
  | bmaskNot (bit : Nat)
  | word (v : Nat)
  | wordNot (v : Nat)
  | long (v : Nat)
deriving DecidableEq, Inhabited

namespace ConstantForm

/-- The complement of a 32-bit word. -/
def complement (v : Nat) : Nat := 2 ^ 32 - 1 - v

/-- The position of the one bit that is set in a word. -/
def singleBit? (v : Nat) : Option Nat := (List.range 32).find? fun k => v == 2 ^ k

/-- The last bit of the row of set bits that a word consists of; a full word is none. -/
def lowMask? (v : Nat) : Option Nat := (List.range 31).find? fun k => v == 2 ^ (k + 1) - 1

/-- What a form stands for, as a 32-bit word. -/
def value : ConstantForm → Nat
  | small distance => if distance = 0 then 2 ^ 32 - 1 else distance - 1
  | byte v         => v
  | byteNot v      => complement v
  | decod bit      => 2 ^ bit
  | decodNot bit   => complement (2 ^ bit)
  | bmask bit      => 2 ^ (bit + 1) - 1
  | bmaskNot bit   => complement (2 ^ (bit + 1) - 1)
  | word v         => v
  | wordNot v      => complement v
  | long v         => v

/-- The opcode of the least number that fits into an opcode. -/
def smallCode : Nat := 0xA0

/-- The bytes of a form. -/
def bytes : ConstantForm → Bytes
  | small distance => [UInt8.ofNat (smallCode + distance)]
  | byte v         => Op.conByte.byte :: littleEndian 1 v
  | byteNot v      => Op.conByteNot.byte :: littleEndian 1 v
  | word v         => Op.conWord.byte :: littleEndian 2 v
  | wordNot v      => Op.conWordNot.byte :: littleEndian 2 v
  | long v         => Op.conLong.byte :: littleEndian 4 v
  | decod bit      => Op.conDecod.byte :: littleEndian 1 bit
  | decodNot bit   => Op.conDecodNot.byte :: littleEndian 1 bit
  | bmask bit      => Op.conBmask.byte :: littleEndian 1 bit
  | bmaskNot bit   => Op.conBmaskNot.byte :: littleEndian 1 bit

/-- The forms for a word, apart from the short ones, in order of preference. -/
def choosePattern (v : Nat) : ConstantForm :=
  let w := complement v
  match singleBit? v, singleBit? w, lowMask? v, lowMask? w with
  | some k, _,      _,      _      => decod k
  | none,   some k, _,      _      => decodNot k
  | none,   none,   some k, _      => bmask k
  | none,   none,   none,   some k => bmaskNot k
  | none,   none,   none,   none   =>
    if v < 2 ^ 16 then word v else if w < 2 ^ 16 then wordNot w else long v

/-- The form in which a 32-bit word is pushed. -/
def choose (v : Nat) : ConstantForm :=
  let w := complement v
  if v ≤ 14 then small (v + 1)
  else if w = 0 then small 0
  else if v < 2 ^ 8 then byte v
  else if w < 2 ^ 8 then byteNot w
  else choosePattern v

end ConstantForm

end Propeller
