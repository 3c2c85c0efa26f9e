import Propeller.Expression.Error
import Propeller.Number.Single

/-!
# Numbers

A number is a 64-bit integer or a single.  What is stored of it in a program is its `long`: an
integer itself, and of a float its pattern.  A machine word keeps the low 32 bits of that
(`Number.word`).
-/

namespace Propeller

/-- The low 32 bits of an integer. -/
def lowWord (v : Int64) : BitVec 32 := v.toBitVec.setWidth 32

/-- The integer with the given low 32 bits and no others. -/
def unsignedWord (w : BitVec 32) : Int64 := Int64.ofBitVec (w.setWidth 64)

/-- The integer that a 32-bit pattern denotes in two's complement. -/
def signedWord (w : BitVec 32) : Int64 := Int64.ofBitVec (w.signExtend 64)

@[simp]
theorem lowWord_unsignedWord (w : BitVec 32) : lowWord (unsignedWord w) = w := by
  simp [lowWord, unsignedWord]

@[simp]
theorem lowWord_signedWord (w : BitVec 32) : lowWord (signedWord w) = w := by
  ext i h
  have wide : i < 64 := by omega
  simp [lowWord, signedWord, BitVec.getElem_signExtend, h, wide]

/-- A numeric value. -/
inductive Number
  | int (value : Int64)
  | float (value : Single)
deriving DecidableEq, Inhabited

namespace Number

/-- The value of an integer; a float has none. -/
def toInt : Number → Except EvalError Int64
  | int v   => .ok v
  | float _ => .error (.mixedTypes "integer")

/-- The integer that is stored for a number: a float is stored as its pattern. -/
def long : Number → Int64
  | int v   => v
  | float x => unsignedWord x.bits.toBitVec

/-- The 32 bits that a machine word keeps of a number. -/
def word (n : Number) : Nat := (lowWord n.long).toNat

theorem word_lt (n : Number) : n.word < 2 ^ 32 := (lowWord n.long).isLt

end Number

end Propeller
