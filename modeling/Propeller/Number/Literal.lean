import Propeller.Number.Basic
import Propeller.Number.Decimal

/-!
# Numbers — literals

A literal is a number with the base it was written in: `$1F`, `%1010`, `%%123`, `42`, `1.5`, with a
sign in front and `_` between the digits where one likes.  The base decides how the literal prints
and never what it is worth.
-/

namespace Propeller

/-- A number and the base it was written in. -/
structure Literal where
  value : Number
  base : Nat := 10
deriving DecidableEq, Inhabited

namespace Literal

/-- The decimal literal of an integer. -/
def ofInt (v : Int64) : Literal := ⟨.int v, 10⟩

/-- The literal of a number that was not written anywhere. -/
def ofNumber (n : Number) : Literal := ⟨n, 10⟩

/-- The mark of a base. -/
def mark : (base : Nat) → List Char
  | 2  => ['%']
  | 4  => ['%', '%']
  | 16 => ['$']
  | _  => []

/-- The base whose digits a literal is written in: one without a mark of its own is decimal. -/
def digitBase (base : Nat) : Nat := if (mark base).isEmpty then 10 else base

/-- The text of a literal. -/
def text (l : Literal) : String :=
  match l.value with
  | .float x => x.text
  | .int v   =>
    let sign := if v < 0 then ['-'] else []
    String.ofList (sign ++ mark l.base ++ Numeral.digits (digitBase l.base) v.toInt.natAbs)

/-- Read the mark of a base: the base and what follows. -/
def splitMark : List Char → Nat × List Char
  | '%' :: '%' :: cs => (4, cs)
  | '%' :: cs        => (2, cs)
  | '$' :: cs        => (16, cs)
  | cs               => (10, cs)

/-- Read an integer of at most 64 bits, with a sign of its own. -/
def readInt? (base : Nat) (cs : List Char) : Option Int64 :=
  let (negative, ds) := Single.splitSign cs
  (Numeral.read? base ds).bind fun n =>
    let v : Int := if negative then -n else n
    if -2 ^ 63 ≤ v ∧ v < 2 ^ 63 then some (Int64.ofInt v) else none

/-- A decimal with one of these characters is a float. -/
def marksFloat (c : Char) : Bool := c = '.' ∨ c = 'e' ∨ c = 'E'

/-- Read a literal without its leading minus; `negative` says whether there was one. -/
def readUnsigned? (negative : Bool) (cs : List Char) : Option Literal :=
  let (base, cs) := splitMark cs
  let ds := cs.filter (· ≠ '_')
  if ds.isEmpty then none
  else if base = 10 ∧ ds.any marksFloat then
    (Single.read? ds).map fun x => ⟨.float (if negative then x.neg else x), 10⟩
  else
    (readInt? base ds).map fun v => ⟨.int (if negative then -v else v), base⟩

/-- Read a literal. -/
def read? (text : String) : Option Literal :=
  match text.toList with
  | '-' :: cs => readUnsigned? true cs
  | cs        => readUnsigned? false cs

end Literal

end Propeller
