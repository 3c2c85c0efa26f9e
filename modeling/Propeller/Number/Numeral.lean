import Propeller.Arithmetic

/-!
# Numbers — positional numerals

Digits in bases up to sixteen, written most significant first and with capital letters, and read
back from either case.
-/

namespace Propeller.Numeral

/-- The digit characters, by value. -/
def digitChars : List Char :=
  ['0', '1', '2', '3', '4', '5', '6', '7', '8', '9', 'A', 'B', 'C', 'D', 'E', 'F']

/-- The character of a digit below sixteen. -/
def digitChar (d : Nat) : Char := digitChars.getD d '0'

/-- The value of a digit character in a base of at most sixteen, if it is a digit of that base. -/
def digitValue? (base : Nat) (c : Char) : Option Nat :=
  let value? :=
    if '0' ≤ c ∧ c ≤ '9' then some (c.toNat - '0'.toNat)
    else if 'a' ≤ c ∧ c ≤ 'f' then some (c.toNat - 'a'.toNat + 10)
    else if 'A' ≤ c ∧ c ≤ 'F' then some (c.toNat - 'A'.toNat + 10)
    else none
  value?.filter (· < base)

/-- The digits of `n`, at most `places` of them, in front of `rest`. -/
def digitsOnto (base : Nat) : (places : Nat) → (n : Nat) → (rest : List Char) → List Char
  | 0,          _, rest => rest
  | places + 1, n, rest =>
    let rest := digitChar (n % base) :: rest
    if n / base = 0 then rest else digitsOnto base places (n / base) rest

/-- The digits of `n`: a base of at least two needs no more places than there are bits. -/
def digits (base n : Nat) : List Char := digitsOnto base (n.log2 + 1) n []

/-- The number that digits denote after a higher part `high`. -/
def readFrom? (base : Nat) (high : Nat) : List Char → Option Nat
  | []      => some high
  | c :: cs => (digitValue? base c).bind fun d => readFrom? base (high * base + d) cs

/-- The number that a non-empty row of digits denotes. -/
def read? (base : Nat) (cs : List Char) : Option Nat :=
  if cs.isEmpty then none else readFrom? base 0 cs

/-- The numeral of `n` in a base, as text. -/
def text (base n : Nat) : String := String.ofList (digits base n)

/-- A 64-bit value in base sixteen; a negative one shows as its two's complement pattern. -/
def hex64 (v : Int) : String := text 16 (v % 2 ^ 64).toNat

end Propeller.Numeral
