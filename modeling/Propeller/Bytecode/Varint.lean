import Propeller.Bytes

/-!
# Bytecode — numbers of variable length

An operand is stored seven bits a byte, least significant first, with the top bit set in every byte
but the last; a fourth byte is the last and holds eight bits.  So an unsigned operand has up to 29
bits, and a signed one has 29 with its sign.
-/

namespace Propeller.Varint

/-- The byte at position `i` of `length` that store `v`. -/
def byteAt (length v i : Nat) : Nat :=
  let group := v / 2 ^ (7 * i)
  if i + 1 < length then group % 128 + 128 else if i = 3 then group % 256 else group % 128

/-- The `length` bytes that store `v`. -/
def bytes (length v : Nat) : Bytes :=
  (List.range length).map fun i => UInt8.ofNat (byteAt length v i)

/-- How many bytes an unsigned operand takes. -/
def unsignedLength (v : Nat) : Nat :=
  if v < 2 ^ 7 then 1 else if v < 2 ^ 14 then 2 else if v < 2 ^ 21 then 3 else 4

/-- How many bytes a signed operand takes. -/
def signedLength (v : Int) : Nat :=
  if -2 ^ 6 ≤ v ∧ v < 2 ^ 6 then 1
  else if -2 ^ 13 ≤ v ∧ v < 2 ^ 13 then 2
  else if -2 ^ 20 ≤ v ∧ v < 2 ^ 20 then 3
  else 4

/-- Store an unsigned operand. -/
def unsigned (v : Nat) : Bytes := bytes (unsignedLength v) v

/-- Store a signed operand as its pattern. -/
def signed (v : Int) : Bytes := bytes (signedLength v) (v % 2 ^ 32).toNat

@[simp]
theorem length_bytes (length v : Nat) : (bytes length v).length = length := by simp [bytes]

end Propeller.Varint
