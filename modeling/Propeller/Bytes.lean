import Propeller.Arithmetic

/-!
# Bytes

Numbers are stored least significant byte first.  `littleEndian width n` keeps the low `width`
bytes of `n`, and `ofLittleEndian` reads a row of bytes back.
-/

namespace Propeller

/-- A row of bytes. -/
abbrev Bytes := List UInt8

/-- The low `width` bytes of `n`, least significant first. -/
def littleEndian : (width : Nat) → (n : Nat) → Bytes
  | 0,         _ => []
  | width + 1, n => UInt8.ofNat n :: littleEndian width (n / 256)

/-- The number that a row of bytes denotes, least significant first. -/
def ofLittleEndian : Bytes → Nat
  | []      => 0
  | b :: bs => b.toNat + 256 * ofLittleEndian bs

/-- A row of `n` zero bytes. -/
def zeros (n : Nat) : Bytes := List.replicate n 0

/-- The least multiple of four that is not below `n`. -/
def align4 (n : Nat) : Nat := (n + 3) / 4 * 4

/-- The least multiple of `size` that is not below `n`. -/
def alignTo (size n : Nat) : Nat := (n + size - 1) / size * size

/-- The bytes of a text in UTF-8. -/
def utf8Bytes (text : String) : Bytes := text.toList.flatMap String.utf8EncodeChar

@[simp]
theorem length_littleEndian (width n : Nat) : (littleEndian width n).length = width := by
  induction width generalizing n with
  | zero => rfl
  | succ width ih => simp [littleEndian, ih]

theorem ofLittleEndian_littleEndian (width n : Nat) :
    ofLittleEndian (littleEndian width n) = n % 256 ^ width := by
  induction width generalizing n with
  | zero => simp [littleEndian, ofLittleEndian, Nat.mod_one]
  | succ width ih =>
    have split : n % (256 * 256 ^ width) = n % 256 + 256 * (n / 256 % 256 ^ width) := Nat.mod_mul
    simp [littleEndian, ofLittleEndian, ih, Nat.pow_succ', split]

@[simp]
theorem length_zeros (n : Nat) : (zeros n).length = n := List.length_replicate

end Propeller
