import Propeller.Number.Numeral

/-!
# Numbers — single precision

Floating-point constants are IEEE singles.  A `Single` is its 32-bit pattern, so that what is
stored is what was written, a NaN's payload included.  A finite pattern denotes
`± significand · 2 ^ exponent`; rounding a ratio to the nearest pattern, a tie to the even one, is
`Single.nearest`, on which reading decimals and converting integers rest.
-/

namespace Propeller

/-- An IEEE single, as its bit pattern. -/
structure Single where
  bits : UInt32
deriving DecidableEq, Inhabited

namespace Single

/-! ### Parts of a pattern -/

/-- The pattern without its sign bit. -/
def magnitude (x : Single) : Nat := x.bits.toNat % 2 ^ 31

/-- The sign bit is set. -/
def isNegative (x : Single) : Bool := 2 ^ 31 ≤ x.bits.toNat

/-- The magnitude of an infinity. -/
def infinity : Nat := 255 * 2 ^ 23

/-- The pattern is no number. -/
def isNaN (x : Single) : Bool := infinity < x.magnitude

/-- The pattern is an infinity. -/
def isInfinite (x : Single) : Bool := x.magnitude = infinity

/-- The integer `m` of a finite value `m · 2 ^ e`. -/
def significand (x : Single) : Nat :=
  if x.magnitude < 2 ^ 23 then x.magnitude else 2 ^ 23 + x.magnitude % 2 ^ 23

/-- The exponent `e` of a finite value `m · 2 ^ e`. -/
def exponent (x : Single) : Int :=
  if x.magnitude < 2 ^ 23 then -149 else (x.magnitude / 2 ^ 23 : Nat) - 150

/-- The pattern with a given sign and magnitude. -/
def ofMagnitude (negative : Bool) (m : Nat) : Single :=
  ⟨UInt32.ofNat (if negative then 2 ^ 31 + m else m)⟩

/-- The value with the sign bit flipped. -/
def neg (x : Single) : Single := ofMagnitude (!x.isNegative) x.magnitude

/-- The value with the sign bit cleared. -/
def abs (x : Single) : Single := ofMagnitude false x.magnitude

/-! ### Rounding -/

/-- `num / den` rounded to the nearest integer, a tie to the even one. -/
def roundHalfEven (num den : Nat) : Nat :=
  let q := num / den
  let r := num % den
  if 2 * r < den then q else if den < 2 * r then q + 1 else q + q % 2

/-- The exponent of the greatest power of two that is at most `num / den`. -/
def binaryExponent (num den : Nat) : Int :=
  let guess : Int := (num.log2 : Int) - den.log2
  if den * 2 ^ guess.toNat ≤ num * 2 ^ (-guess).toNat then guess else guess - 1

/-- The magnitude nearest to `num / den`, a tie to the even one.  A subnormal keeps the exponent
`-149`; a value past the largest finite one is an infinity. -/
def nearest (num den : Nat) : Nat :=
  if num = 0 then 0 else
  let e := max (-149) (binaryExponent num den - 23)
  let q := roundHalfEven (num * 2 ^ (-e).toNat) (den * 2 ^ e.toNat)
  min ((e + 149).toNat * 2 ^ 23 + q) infinity

/-- The magnitude nearest to `digits · 10 ^ exponent`. -/
def nearestDecimal (digits : Nat) (exponent : Int) : Nat :=
  nearest (digits * 10 ^ exponent.toNat) (10 ^ (-exponent).toNat)

/-- The single nearest to an integer. -/
def ofInt (v : Int) : Single := ofMagnitude (v < 0) (nearest v.natAbs 1)

/-- Keep an integer within 64 bits. -/
def saturate (v : Int) : Int64 := Int64.ofInt (max (-2 ^ 63) (min v (2 ^ 63 - 1)))

/-- Make an integer of a value, rounding its magnitude with `round significand divisor`.  What lies
outside 64 bits goes to the nearest end, and a NaN to zero. -/
def toInt64 (round : Nat → Nat → Nat) (x : Single) : Int64 :=
  if x.isNaN then 0 else
  let size : Nat :=
    if x.isInfinite then 2 ^ 64
    else round (x.significand * 2 ^ x.exponent.toNat) (2 ^ (-x.exponent).toNat)
  saturate (if x.isNegative then -size else size)

/-- The nearest integer, a half away from zero. -/
def round : Single → Int64 := toInt64 fun num den => (2 * num + den) / (2 * den)

/-- The integer part. -/
def trunc : Single → Int64 := toInt64 fun num den => num / den

/-! ### Arithmetic -/

/-- What an operation without a defined result gives. -/
def invalid : Single := ⟨0xFFC00000⟩

/-- A NaN passed on: its payload with the quiet bit set. -/
def quiet (x : Single) : Single := ⟨x.bits ||| 0x00400000⟩

/-- The result of a machine operation. -/
def ofFloat (x : Float32) : Single := if x.isNaN then invalid else ⟨x.toBits⟩

/-- The machine number of a pattern. -/
def toFloat (x : Single) : Float32 := Float32.ofBits x.bits

/-- Apply an operation on two numbers; the first NaN among the operands is passed on. -/
def lift₂ (f : Float32 → Float32 → Float32) (x y : Single) : Single :=
  if x.isNaN then x.quiet else if y.isNaN then y.quiet else ofFloat (f x.toFloat y.toFloat)

def add : Single → Single → Single := lift₂ (· + ·)
def sub : Single → Single → Single := lift₂ (· - ·)
def mul : Single → Single → Single := lift₂ (· * ·)
def div : Single → Single → Single := lift₂ (· / ·)

/-- The square root. -/
def sqrt (x : Single) : Single := if x.isNaN then x.quiet else ofFloat x.toFloat.sqrt

/-- Comparison of the values: a NaN is below nothing. -/
def lt (x y : Single) : Bool := x.toFloat < y.toFloat

/-- Equality of the values: the zeros are equal, and a NaN equals nothing. -/
def eq (x y : Single) : Bool := x.toFloat == y.toFloat

/-! ### Reading -/

/-- Split off the digits at the front. -/
def spanDigits (cs : List Char) : List Char × List Char :=
  (cs.takeWhile Char.isDigit, cs.dropWhile Char.isDigit)

/-- Split off a sign at the front: whether it is a minus, and what follows it. -/
def splitSign : List Char → Bool × List Char
  | '-' :: cs => (true, cs)
  | '+' :: cs => (false, cs)
  | cs        => (false, cs)

/-- Read the exponent part of a decimal, which may be missing. -/
def readExponent? : List Char → Option Int
  | []      => some 0
  | c :: cs =>
    if c = 'e' ∨ c = 'E' then
      let (negative, ds) := splitSign cs
      (Numeral.read? 10 ds).map fun n => if negative then -n else n
    else none

/-- The magnitude nearest to `digits · 10 ^ exponent`.  A decimal of more than 60 places before
the point is past every finite single, and one with 60 zeros behind it is below every positive one,
so neither is computed. -/
def magnitudeOfDecimal (digits : List Char) (exponent : Int) : Option Nat :=
  (Numeral.read? 10 digits).map fun n =>
    let places : Int := (digits.dropWhile (· = '0')).length + exponent
    if n = 0 then 0
    else if 60 < places then infinity
    else if places < -60 then 0
    else nearestDecimal n exponent

/-- Read a decimal: a sign, digits with a point among or beside them, and an exponent, all but the
digits optional. -/
def read? (cs : List Char) : Option Single :=
  let (negative, cs) := splitSign cs
  let (whole, cs) := spanDigits cs
  let (fraction, cs) := match cs with
    | '.' :: cs => spanDigits cs
    | _         => ([], cs)
  (readExponent? cs).bind fun e =>
    (magnitudeOfDecimal (whole ++ fraction) (e - fraction.length)).map (ofMagnitude negative)

end Single

end Propeller
