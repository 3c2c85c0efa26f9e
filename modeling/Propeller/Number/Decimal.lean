import Propeller.Number.Single

/-!
# Numbers — shortest decimals

The text of a single has the fewest digits that read back as the same value, and of those the
nearest to it.  `Single.shortest` finds the digits; `Single.text` lays them out: positional from
`0.0001` up to below `10 ^ 16`, with one digit after the point at least, and in scientific notation
outside that range.
-/

namespace Propeller.Single

/-! ### The digits -/

/-- The value as a ratio. -/
def ratio (x : Single) : Nat × Nat :=
  (x.significand * 2 ^ x.exponent.toNat, 2 ^ (-x.exponent).toNat)

/-- The exponent of the greatest power of ten that is at most a positive finite value. -/
def decimalExponent (x : Single) : Int :=
  let (num, den) := x.ratio
  let exponents : List Int := (List.range 85).map fun (i : Nat) => 38 - (i : Int)
  (exponents.find? fun t => den * 10 ^ t.toNat ≤ num * 10 ^ (-t).toNat).getD (-46)

/-- The neighbour of a value on the grid of multiples of `10 ^ p` that reads back as the value, if
one does: the nearer of two, and the upper one of two equally near. -/
def onGrid? (x : Single) (p : Int) : Option Nat :=
  let (num, den) := x.ratio
  let num := num * 10 ^ (-p).toNat
  let den := den * 10 ^ p.toNat
  let below := num / den
  let readsBack (d : Nat) : Bool := nearestDecimal d p = x.magnitude
  let nearer := if 2 * (num % den) < den then below else below + 1
  let farther := if nearer = below then below + 1 else below
  if readsBack nearer then some nearer else if readsBack farther then some farther else none

/-- Take zeros off the end of a digit row, counting them into the exponent. -/
def trimZeros : (places : Nat) → (digits : Nat) → (p : Int) → Nat × Int
  | 0,          d, p => (d, p)
  | places + 1, d, p => if d % 10 = 0 ∧ d ≠ 0 then trimZeros places (d / 10) (p + 1) else (d, p)

/-- The shortest decimal `digits · 10 ^ p` that reads back as a positive finite value.  Nine digits
always do. -/
def shortest (x : Single) : Nat × Int :=
  let t := x.decimalExponent
  let found := (List.range 9).findSome? fun (k : Nat) =>
    let p := t - (k : Int)
    (x.onGrid? p).map fun d => (d, p)
  let (d, p) := found.getD (x.significand, 0)
  trimZeros 10 d p

/-! ### The layout -/

/-- The text of `digits · 10 ^ p` without an exponent, with a digit before and after the point. -/
def positional (digits : List Char) (p : Int) : List Char :=
  if 0 ≤ p then digits ++ List.replicate p.toNat '0' ++ ['.', '0']
  else
    let places := (-p).toNat
    let padded := List.replicate (places + 1 - digits.length) '0' ++ digits
    padded.take (padded.length - places) ++ ['.'] ++ padded.drop (padded.length - places)

/-- The text of `digits · 10 ^ p` with one digit before the point and an exponent. -/
def scientific (digits : List Char) (p : Int) : List Char :=
  let e := p + digits.length - 1
  let mantissa := match digits with
    | []      => []
    | [d]     => [d]
    | d :: ds => d :: '.' :: ds
  let exponent := (if e < 0 then ['-'] else []) ++ Numeral.digits 10 e.natAbs
  mantissa ++ ['e'] ++ exponent

/-- The text of a positive finite value. -/
def magnitudeText (x : Single) : List Char :=
  let (d, p) := x.shortest
  let digits := Numeral.digits 10 d
  let e := p + digits.length - 1
  if e < -4 ∨ 16 ≤ e then scientific digits p else positional digits p

/-- The text of a single. -/
def text (x : Single) : String :=
  if x.isNaN then "NaN" else
  let size :=
    if x.isInfinite then ['i', 'n', 'f']
    else if x.magnitude = 0 then ['0', '.', '0']
    else x.magnitudeText
  String.ofList (if x.isNegative then '-' :: size else size)

end Propeller.Single
