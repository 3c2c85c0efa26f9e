import Propeller.Number.Basic

/-!
# Numbers — operators

The operators of constant expressions.  Integer operators work on 64 bits in two's complement and
wrap around; those that treat their operands as machine words look at the low 32 bits only.  A
truth value is `-1` or `0`.  Integers and floats never mix: an operator applied to the wrong kind
of operand fails with its own symbol.
-/

namespace Propeller

/-! ### Unary operators -/

inductive UnaryOp
  | negate | bitNot | logicalNot | abs | encod | decod | bmask | ones | sqrt
  | float | round | trunc
  | floatNegate | floatAbs | floatSqrt
deriving DecidableEq, Inhabited

/-- All unary operators. -/
def UnaryOp.all : List UnaryOp :=
  [ .negate, .bitNot, .logicalNot, .abs, .encod, .decod, .bmask, .ones, .sqrt, .float, .round,
    .trunc, .floatNegate, .floatAbs, .floatSqrt ]

/-- How the operator is written. -/
def UnaryOp.symbol : UnaryOp → String
  | .negate      => "-"
  | .bitNot      => "!"
  | .logicalNot  => "!!"
  | .abs         => "ABS"
  | .encod       => "ENCOD"
  | .decod       => "DECOD"
  | .bmask       => "BMASK"
  | .ones        => "ONES"
  | .sqrt        => "SQRT"
  | .float       => "FLOAT"
  | .round       => "ROUND"
  | .trunc       => "TRUNC"
  | .floatNegate => "-."
  | .floatAbs    => "FABS"
  | .floatSqrt   => "FSQRT"

/-- `-1` for true, `0` for false. -/
def truth (b : Bool) : Int64 := if b then -1 else 0

/-- The low five bits of an integer, a bit position in a word. -/
def bitIndex (v : Int64) : Nat := (lowWord v).toNat % 32

/-- The word with bits `0` to `n` set. -/
def maskThrough (n : Nat) : BitVec 32 := BitVec.ofNat 32 (2 ^ (n + 1) - 1)

/-- How many bits of a word are set. -/
def bitCount (w : BitVec 32) : Nat := (List.range 32).countP w.getLsbD

/-- Take a bit into a square root if the square does not pass `n`. -/
def extendRoot (n r bit : Nat) : Nat :=
  let next := r + 2 ^ bit
  if next * next ≤ n then next else r

/-- The greatest `r` with `r * r ≤ n`, for `n` below `2 ^ 32`: its bits are settled from the highest
down. -/
def wordSqrt (n : Nat) : Nat := (List.range 16).reverse.foldl (extendRoot n) 0

/-- Apply a unary operator. -/
def UnaryOp.apply : UnaryOp → Number → Except EvalError Number
  | .negate,      .float x => .ok (.float x.neg)
  | .floatNegate, .float x => .ok (.float x.neg)
  | .abs,         .float x => .ok (.float x.abs)
  | .floatAbs,    .float x => .ok (.float x.abs)
  | .floatSqrt,   .float x => .ok (.float x.sqrt)
  | .round,       .float x => .ok (.int x.round)
  | .trunc,       .float x => .ok (.int x.trunc)
  | .float,       .int v   => .ok (.float (Single.ofInt v.toInt))
  | .negate,      .int v   => .ok (.int (-v))
  | .bitNot,      .int v   => .ok (.int (~~~v))
  | .logicalNot,  .int v   => .ok (.int (truth (v == 0)))
  | .abs,         .int v   => .ok (.int (if v < 0 then -v else v))
  | .encod,       .int v   => .ok (.int (Int64.ofNat (lowWord v).toNat.log2))
  | .decod,       .int v   => .ok (.int (Int64.ofNat (2 ^ bitIndex v)))
  | .bmask,       .int v   => .ok (.int (unsignedWord (maskThrough (bitIndex v))))
  | .ones,        .int v   => .ok (.int (Int64.ofNat (bitCount (lowWord v))))
  | .sqrt,        .int v   => .ok (.int (Int64.ofNat (wordSqrt (lowWord v).toNat)))
  | op,           _        => .error (.mixedTypes op.symbol)

/-! ### Integer operators -/

inductive IntegerOp
  | shr | shl | sar | ror | rol | rev | zerox | signx
  | and | xor | or
  | mul | div | divUnsigned | rem | remUnsigned | sca | scas | frac
  | add | sub | limitMin | limitMax
  | less | lessUnsigned | lessOrEqual | lessOrEqualUnsigned
  | equal | notEqual
  | greaterOrEqual | greaterOrEqualUnsigned | greater | greaterUnsigned
  | compare
  | logicalAnd | logicalXor | logicalOr
deriving DecidableEq, Inhabited

/-- All integer operators. -/
def IntegerOp.all : List IntegerOp :=
  [ .shr, .shl, .sar, .ror, .rol, .rev, .zerox, .signx, .and, .xor, .or, .mul, .div, .divUnsigned,
    .rem, .remUnsigned, .sca, .scas, .frac, .add, .sub, .limitMin, .limitMax, .less, .lessUnsigned,
    .lessOrEqual, .lessOrEqualUnsigned, .equal, .notEqual, .greaterOrEqual,
    .greaterOrEqualUnsigned, .greater, .greaterUnsigned, .compare, .logicalAnd, .logicalXor,
    .logicalOr ]

/-- How the operator is written. -/
def IntegerOp.symbol : IntegerOp → String
  | .shr                    => ">>"
  | .shl                    => "<<"
  | .sar                    => "SAR"
  | .ror                    => "ROR"
  | .rol                    => "ROL"
  | .rev                    => "REV"
  | .zerox                  => "ZEROX"
  | .signx                  => "SIGNX"
  | .and                    => "&"
  | .xor                    => "^"
  | .or                     => "|"
  | .mul                    => "*"
  | .div                    => "/"
  | .divUnsigned            => "+/"
  | .rem                    => "//"
  | .remUnsigned            => "+//"
  | .sca                    => "SCA"
  | .scas                   => "SCAS"
  | .frac                   => "FRAC"
  | .add                    => "+"
  | .sub                    => "-"
  | .limitMin               => "#>"
  | .limitMax               => "<#"
  | .less                   => "<"
  | .lessUnsigned           => "+<"
  | .lessOrEqual            => "<="
  | .lessOrEqualUnsigned    => "+<="
  | .equal                  => "=="
  | .notEqual               => "<>"
  | .greaterOrEqual         => ">="
  | .greaterOrEqualUnsigned => "+>="
  | .greater                => ">"
  | .greaterUnsigned        => "+>"
  | .compare                => "<=>"
  | .logicalAnd             => "&&"
  | .logicalXor             => "^^"
  | .logicalOr              => "||"

/-- Apply an integer operator.  The bit position of a shift, a rotation or an extension is the low
five bits of the right operand. -/
def IntegerOp.apply (op : IntegerOp) (l r : Int64) : Except EvalError Int64 :=
  let wl := lowWord l
  let wr := lowWord r
  let n := bitIndex r
  match op with
  | .shr                    => .ok (unsignedWord (wl >>> n))
  | .shl                    => .ok (unsignedWord (wl <<< n))
  | .sar                    => .ok (signedWord (wl.sshiftRight n))
  | .ror                    => .ok (unsignedWord (wl.rotateRight n))
  | .rol                    => .ok (unsignedWord (wl.rotateLeft n))
  | .rev                    => .ok (unsignedWord (wl.reverse >>> (31 - n)))
  | .zerox                  => .ok (unsignedWord (wl &&& maskThrough n))
  | .signx                  => .ok (signedWord ((wl <<< (31 - n)).sshiftRight (31 - n)))
  | .and                    => .ok (l &&& r)
  | .xor                    => .ok (l ^^^ r)
  | .or                     => .ok (l ||| r)
  | .mul                    => .ok (l * r)
  | .div                    => if r = 0 then .error .divisionByZero else .ok (l / r)
  | .rem                    => if r = 0 then .error .divisionByZero else .ok (l % r)
  | .divUnsigned            =>
      if wr = 0 then .error .divisionByZero else .ok (unsignedWord (wl.udiv wr))
  | .remUnsigned            =>
      if wr = 0 then .error .divisionByZero else .ok (unsignedWord (wl.umod wr))
  | .frac                   =>
      if wr = 0 then .error .divisionByZero
      else .ok (unsignedWord (BitVec.ofNat 32 (wl.toNat * 2 ^ 32 / wr.toNat)))
  | .sca                    => .ok (unsignedWord (BitVec.ofNat 32 (wl.toNat * wr.toNat / 2 ^ 32)))
  | .scas                   => .ok (signedWord (BitVec.ofInt 32 ((wl.toInt * wr.toInt) / 2 ^ 30)))
  | .add                    => .ok (l + r)
  | .sub                    => .ok (l - r)
  | .limitMin               => .ok (if l < r then r else l)
  | .limitMax               => .ok (if r < l then r else l)
  | .less                   => .ok (truth (l < r))
  | .lessOrEqual            => .ok (truth (l ≤ r))
  | .greater                => .ok (truth (r < l))
  | .greaterOrEqual         => .ok (truth (r ≤ l))
  | .lessUnsigned           => .ok (truth (wl < wr))
  | .lessOrEqualUnsigned    => .ok (truth (wl ≤ wr))
  | .greaterUnsigned        => .ok (truth (wr < wl))
  | .greaterOrEqualUnsigned => .ok (truth (wr ≤ wl))
  | .equal                  => .ok (truth (wl == wr))
  | .notEqual               => .ok (truth (wl != wr))
  | .compare                => .ok (if l < r then -1 else if r < l then 1 else 0)
  | .logicalAnd             => .ok (truth (l != 0 && r != 0))
  | .logicalXor             => .ok (truth ((l != 0) != (r != 0)))
  | .logicalOr              => .ok (truth (l != 0 || r != 0))

/-! ### Float operators -/

inductive FloatOp
  | add | sub | mul | div | less | greater | equal | notEqual
deriving DecidableEq, Inhabited

/-- All float operators. -/
def FloatOp.all : List FloatOp := [.add, .sub, .mul, .div, .less, .greater, .equal, .notEqual]

/-- How the operator is written. -/
def FloatOp.symbol : FloatOp → String
  | .add      => "+."
  | .sub      => "-."
  | .mul      => "*."
  | .div      => "/."
  | .less     => "<."
  | .greater  => ">."
  | .equal    => "==."
  | .notEqual => "<>."

/-- Apply a float operator. -/
def FloatOp.apply : FloatOp → Single → Single → Number
  | .add,      x, y => .float (x.add y)
  | .sub,      x, y => .float (x.sub y)
  | .mul,      x, y => .float (x.mul y)
  | .div,      x, y => .float (x.div y)
  | .less,     x, y => .int (truth (x.lt y))
  | .greater,  x, y => .int (truth (y.lt x))
  | .equal,    x, y => .int (truth (x.eq y))
  | .notEqual, x, y => .int (truth (!x.eq y))

/-! ### Binary operators -/

inductive BinaryOp
  | integer (op : IntegerOp)
  | float (op : FloatOp)
deriving DecidableEq, Inhabited

namespace BinaryOp

/-- All binary operators. -/
def all : List BinaryOp := IntegerOp.all.map integer ++ FloatOp.all.map float

/-- How the operator is written. -/
def symbol : BinaryOp → String
  | integer op => op.symbol
  | float op   => op.symbol

/-- Apply a binary operator to operands of its own kind. -/
def apply : BinaryOp → Number → Number → Except EvalError Number
  | integer op, .int l,   .int r   => (op.apply l r).map .int
  | float op,   .float x, .float y => .ok (op.apply x y)
  | op,         _,        _        => .error (.mixedTypes op.symbol)

end BinaryOp

end Propeller
